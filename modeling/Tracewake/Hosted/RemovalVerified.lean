import Tracewake.Hosted.Commits

/-!
# Removals

What a retention pass and a tenant's deletion have in common: they hide runs, fence
the attempts of the jobs over these runs, cancel the jobs, and let their artifacts
expire. A job is doomed when such a statement covers it, and it stays so.
-/

namespace Tracewake.Hosted

open ReadCommitted

/-- A kind of removal: the jobs that its statements cover, the runs that it hides, the
run that it has hidden by the time it covers jobs, and whether it sweeps notifications. -/
structure Removal where
  condition : Store → JobRow → InputRow → Bool
  removes : Uuid → RunRow → RunRow → Prop
  target : Option Uuid
  sweeping : Prop

variable {p : Policy} {s : Service} {r : Removal} {σ₀ σ₁ σ σ' : Session} {w₁ w w' : World}
  {job : Uuid} {now : Timestamp}

/-- What a removal may change. -/
def Removal.footprint (r : Removal) (now : Timestamp) : Footprint Row where
  Allows
    | .run id, old, new => new = old ∨ ∃ row row' : RunRow, old = some row ∧ new = some row' ∧
        row.state ≠ .deleted ∧ r.removes id row row'
    | .job _, old, new => new = old ∨ ∃ row : JobRow, old = some row ∧
        row.state.terminal = false ∧ new = some (row.cancelDerived now)
    | .attempt _ _, old, new => CancelsAttempt now old new
    | .artifact _ _, old, new => ExpiresArtifact now old new
    | .outbox _ _, old, new => new = old ∨ r.sweeping ∧ new = none ∧ ∃ sent : OutboxRow,
        old = some sent ∧ sent.publishedAt.any (· < now - publishedNotificationRetention) = true
    | .idempotency _ _, old, new => new = old ∨ new = none ∧ ∃ record : IdempotencyRow,
        old = some record ∧ record.expiresAt ≤ now
    | .audit _, _, _ => True
    | _, old, new => new = old
  refl key row := by
    cases key with
    | audit id => trivial
    | run id => exact .inl rfl
    | job id => exact .inl rfl
    | attempt id n => exact .inl rfl
    | artifact id kind => exact .inl rfl
    | outbox id version => exact .inl rfl
    | idempotency workspace key => exact .inl rfl
    | _ => rfl

/-- A statement of the removal covers the job. -/
def Removal.Doomed (r : Removal) (store : Store) (job : Uuid) : Prop :=
  ∃ row input, store.job job = some row ∧ store.jobInput row = some input ∧
    r.condition store row input = true

/-- What the statements of a removal rest on. -/
structure Removal.Lawful (r : Removal) (now : Timestamp) : Prop where
  /-- A job that is covered once is covered from then on. -/
  lasts : ∀ {store store' : Store} {row row' : JobRow} {input : InputRow},
    row'.workspace = row.workspace →
    (∀ run found, store.run run = some found → found.state = .deleted →
      store'.run run = some found) →
    r.condition store row input = true → r.condition store' row' input = true
  step : ∀ {run : Uuid} {row row' : RunRow}, r.removes run row row' → row.state ≠ .deleted →
    RunStep now (some row) (some row') ∧ row'.state = .deleted ∧ row'.workspace = row.workspace
  /-- A job over a hidden run is covered. -/
  covers : ∀ {store : Store} {run : Uuid} {row row' : RunRow} {job : JobRow} {input : InputRow},
    r.removes run row row' → store.run run = some row' → row.workspace = job.workspace →
    run ∈ input.runs → r.condition store job input = true
  /-- A job that is covered has lost a run. -/
  gone : ∀ {store : Store} {job : JobRow} {input : InputRow},
    (∀ run, r.target = some run → ∃ found, store.run run = some found ∧ found.state = .deleted) →
    r.condition store job input = true →
    ∃ run ∈ input.runs, ∃ found, store.run run = some found ∧ found.state = .deleted

/-- Being doomed is what the statement's condition computes. -/
theorem Removal.doomed_iff (r : Removal) (store : Store) (job : Uuid) :
    r.Doomed store job ↔ store.jobOver job (r.condition store) = true := by
  simp only [Store.jobOver, Option.any_eq_true, Removal.Doomed]
  exact ⟨fun ⟨row, input, hrow, hinput, h⟩ => ⟨row, hrow, input, hinput, h⟩,
    fun ⟨row, hrow, input, hinput, h⟩ => ⟨row, input, hrow, hinput, h⟩⟩

/-- Where a removal stands: it has cancelled attempts and jobs only of doomed jobs, and
it has let artifacts expire only of jobs that are over. -/
structure Removing (p : Policy) (s : Service) (r : Removal) (σ₀ σ : Session) (w : World) : Prop
    extends Working (r.footprint σ₀.now) σ₀ σ w where
  lawful : r.Lawful σ₀.now
  target : ∀ run, r.target = some run → (σ.after w).run run ≠ w.rows.run run ∧
    ∃ found, (σ.after w).run run = some found ∧ found.state = .deleted
  attempts : ∀ job n, (σ.after w).attempt job n ≠ w.rows.attempt job n →
    r.Doomed (σ.after w) job
  jobs : ∀ job, (σ.after w).job job ≠ w.rows.job job → r.Doomed (σ.after w) job
  artifacts : ∀ job kind, (σ.after w).artifact job kind ≠ w.rows.artifact job kind →
    w.rows.Terminal job

/-- A written row is locked. -/
theorem Working.locked_of_written {F : Footprint Row} (h : Working F σ₀ σ w) {key : Key}
    {row : Option (Row key)} (hwritten : σ.writes.lookup key = some row) :
    σ.locks key = some .exclusive := by
  refine h.keeps.owned key ?_
  rw [← AList.lookup_isSome, hwritten]
  rfl

/-- A changed row is locked. -/
theorem Working.locked_of_changed {F : Footprint Row} (h : Working F σ₀ σ w) {k : Key}
    (hchanged : (σ.after w).lookup k ≠ w.rows.lookup k) : σ.locks k = some .exclusive := by
  cases hwrites : σ.writes.lookup k with
  | none => exact absurd (Hosted.after_lookup hwrites) hchanged
  | some written => exact h.locked_of_written hwrites

/-- What is changed later on was changed already. -/
theorem Working.changed_before {F : Footprint Row} (h : Working F σ₀ σ w)
    (hlater : (contract p s).Later σ w σ' w') {key : Key}
    (hchanged : (σ'.after w').lookup key ≠ w'.rows.lookup key) :
    (σ.after w).lookup key ≠ w.rows.lookup key := by
  cases hwrites : σ.writes.lookup key with
  | none => exact absurd (Hosted.after_lookup (hlater.writes ▸ hwrites)) hchanged
  | some written =>
    have hne : σ.locks key ≠ none := by simp [h.locked_of_written hwrites]
    refine fun hsame => hchanged ?_
    exact (hlater.view_lookup_eq hne).trans (hsame.trans (hlater.lookup_eq hne).symm)

section Stability

/-- A run that is deleted keeps its row. -/
theorem rely_run_deleted (h : (contract p s).Rely σ w w') {run : Uuid} {found : RunRow}
    (hfound : w.rows.run run = some found) (hstate : found.state = .deleted) :
    w'.rows.run run = some found := by
  refine rely_keeps_rows (fun rows : Store => rows.run run = some found) ?_ h hfound
  intro w₁ τ reply _ _ _ hguar hold
  exact (hguar.runs run).run_deleted hold hstate

/-- What a removal condemns stays condemned: its job keeps workspace and input, and deleted
runs stay deleted. -/
theorem Removal.Doomed.mono {store store' : Store} (hlawful : r.Lawful now)
    (h : r.Doomed store job)
    (hjob : ∀ row, store.job job = some row → ∃ row', store'.job job = some row' ∧
      row'.workspace = row.workspace ∧ row'.input = row.input)
    (hinput : ∀ i input, store.input i = some input → store'.input i = some input)
    (hruns : ∀ run found, store.run run = some found → found.state = .deleted →
      store'.run run = some found) : r.Doomed store' job := by
  obtain ⟨row, input, hrow, hfound, hcondition⟩ := h
  obtain ⟨row', hrow', hworkspace, hsame⟩ := hjob row hrow
  refine ⟨row', input, hrow', ?_, hlawful.lasts hworkspace hruns hcondition⟩
  rw [Store.jobInput, hsame]
  exact hinput _ _ hfound

namespace Removing

/-- What the transaction sees of a job goes on to be the same job. -/
theorem job_later (h : Removing p s r σ₀ σ w) (hlater : (contract p s).Later σ w σ' w')
    {row : JobRow} (hrow : (σ.after w).job job = some row) :
    ∃ row', (σ'.after w').job job = some row' ∧ row'.workspace = row.workspace ∧
      row'.input = row.input := by
  cases hwrites : σ.writes.lookup (.job job) with
  | none =>
    obtain ⟨row', hrow', hworkspace, hsame, _⟩ :=
      rely_job hlater.rely ((after_lookup hwrites).symm.trans hrow)
    exact ⟨row', (after_lookup (hlater.writes ▸ hwrites)).trans hrow', hworkspace, hsame⟩
  | some written =>
    have hlocked : σ.locks (.job job) ≠ none := by simp [h.locked_of_written hwrites]
    exact ⟨row, (hlater.view_lookup_eq hlocked).trans hrow, rfl, rfl⟩

/-- A removal changes no input. -/
theorem after_input (h : Removing p s r σ₀ σ w) (i : Uuid) :
    (σ.after w).input i = w.rows.input i := h.keeps.allows (.input i)

/-- Inputs stay while the others commit. -/
theorem input_later (h : Removing p s r σ₀ σ w) (hlater : (contract p s).Later σ w σ' w')
    {i : Uuid} {input : InputRow} (hinput : (σ.after w).input i = some input) :
    (σ'.after w').input i = some input := by
  have hlast : (σ'.after w').input i = w'.rows.input i :=
    (h.toWorking.later hlater).keeps.allows (.input i)
  exact hlast.trans (rely_input hlater.rely ((h.after_input i).symm.trans hinput))

/-- Deleted runs stay deleted while the others commit. -/
theorem run_later (h : Removing p s r σ₀ σ w) (hlater : (contract p s).Later σ w σ' w')
    {run : Uuid} {found : RunRow} (hfound : (σ.after w).run run = some found)
    (hstate : found.state = .deleted) : (σ'.after w').run run = some found := by
  cases hwrites : σ.writes.lookup (.run run) with
  | none =>
    refine (after_lookup (hlater.writes ▸ hwrites)).trans ?_
    exact rely_run_deleted hlater.rely ((after_lookup hwrites).symm.trans hfound) hstate
  | some written =>
    have hlocked : σ.locks (.run run) ≠ none := by simp [h.locked_of_written hwrites]
    exact (hlater.view_lookup_eq hlocked).trans hfound

/-- Condemned jobs stay condemned while the others commit. -/
theorem doomed_later (h : Removing p s r σ₀ σ w) (hlater : (contract p s).Later σ w σ' w')
    (hdoomed : r.Doomed (σ.after w) job) : r.Doomed (σ'.after w') job :=
  hdoomed.mono h.lawful (fun _ hrow => h.job_later hlater hrow)
    (fun _ _ hinput => h.input_later hlater hinput)
    fun _ _ hfound hstate => h.run_later hlater hfound hstate

/-- The invariant of a removal holds on while the others commit. -/
theorem later (h : Removing p s r σ₀ σ w) (hlater : (contract p s).Later σ w σ' w') :
    Removing p s r σ₀ σ' w' := by
  refine ⟨h.toWorking.later hlater, h.lawful, ?_, ?_, ?_, ?_⟩
  · intro run hrun
    obtain ⟨hchanged, found, hfound, hstate⟩ := h.target run hrun
    refine ⟨?_, found, h.run_later hlater hfound hstate, hstate⟩
    have hlocked : σ.locks (.run run) ≠ none := by
      simp [h.locked_of_changed (k := .run run) hchanged]
    rw [Store.run, hlater.view_lookup_eq hlocked]
    exact fun hsame => hchanged (hsame.trans (hlater.lookup_eq hlocked))
  · intro job n hchanged
    exact h.doomed_later hlater (h.attempts job n (h.changed_before hlater hchanged))
  · intro job hchanged
    exact h.doomed_later hlater (h.jobs job (h.changed_before hlater hchanged))
  · intro job kind hchanged
    obtain ⟨row, hrow, hterminal⟩ := h.artifacts job kind (h.changed_before hlater hchanged)
    exact ⟨row, rely_terminal hlater.rely hrow hterminal, hterminal⟩

/-- A job that the transaction sees to be over stays so. -/
theorem terminal_later (h : Removing p s r σ₀ σ w) (hlater : (contract p s).Later σ w σ' w')
    (hterminal : (σ.after w).Terminal job) : (σ'.after w').Terminal job := by
  obtain ⟨row, hrow, hover⟩ := hterminal
  cases hwrites : σ.writes.lookup (.job job) with
  | none =>
    refine ⟨row, (after_lookup (hlater.writes ▸ hwrites)).trans ?_, hover⟩
    exact rely_terminal hlater.rely ((after_lookup hwrites).symm.trans hrow) hover
  | some written =>
    have hlocked : σ.locks (.job job) ≠ none := by simp [h.locked_of_written hwrites]
    exact ⟨row, (hlater.view_lookup_eq hlocked).trans hrow, hover⟩

/-- The rows of a removal's view tell the committed job apart only by its state. -/
theorem after_job (h : Removing p s r σ₀ σ w) {row : JobRow}
    (hrow : (σ.after w).job job = some row) : ∃ base, w.rows.job job = some base ∧
      base.workspace = row.workspace ∧ base.input = row.input ∧
      (row = base ∨ base.state.terminal = false ∧ row = base.cancelDerived σ₀.now) := by
  rcases h.keeps.allows (.job job) with hsame | ⟨base, hbase, hlive, hnew⟩
  · exact ⟨row, hsame.symm.trans hrow, rfl, rfl, .inl rfl⟩
  · obtain rfl := Option.some.inj (hnew.symm.trans hrow)
    exact ⟨base, hbase, rfl, rfl, .inr ⟨hlive, rfl⟩⟩

/-- A job keeps its workspace and its input under the session's own writes too. -/
theorem job_after (h : Removing p s r σ₀ σ w) {base : JobRow}
    (hbase : w.rows.job job = some base) : ∃ row, (σ.after w).job job = some row ∧
      row.workspace = base.workspace ∧ row.input = base.input := by
  rcases h.keeps.allows (.job job) with hsame | ⟨base', hbase', _, hnew⟩
  · exact ⟨base, hsame.trans hbase, rfl, rfl⟩
  · obtain rfl := Option.some.inj (hbase'.symm.trans hbase)
    exact ⟨_, hnew, rfl, rfl⟩

/-- A removal makes no job lose or gain a run. -/
theorem over_iff (h : Removing p s r σ₀ σ w) {run : Uuid} :
    (σ.after w).Over job run ↔ w.rows.Over job run := by
  constructor
  · rintro ⟨row, input, hrow, hinput, hrun⟩
    obtain ⟨base, hbase, _, hsame, _⟩ := h.after_job hrow
    refine ⟨base, input, hbase, ?_, hrun⟩
    rw [Store.jobInput, hsame]
    exact (h.after_input _).symm.trans hinput
  · rintro ⟨base, input, hbase, hinput, hrun⟩
    obtain ⟨row, hrow, _, hsame⟩ := h.job_after hbase
    refine ⟨row, input, hrow, ?_, hrun⟩
    rw [Store.jobInput, hsame]
    exact (h.after_input _).trans hinput

/-- A run that the removal has changed is hidden by it and locked. -/
theorem hidden (h : Removing p s r σ₀ σ w) {run : Uuid}
    (hchanged : (σ.after w).run run ≠ w.rows.run run) : σ.locks (.run run) = some .exclusive ∧
      ∃ row row', w.rows.run run = some row ∧ (σ.after w).run run = some row' ∧
        row.state ≠ .deleted ∧ r.removes run row row' := by
  refine ⟨h.locked_of_changed (k := .run run) hchanged, ?_⟩
  rcases h.keeps.allows (.run run) with hsame | ⟨row, row', hrow, hrow', hstate, hremoves⟩
  · exact absurd hsame hchanged
  · exact ⟨row, row', hrow, hrow', hstate, hremoves⟩

/-- A job over a hidden run is covered. -/
theorem doomed_of_over (h : Removing p s r σ₀ σ w) (hinv : Consistent p s w.rows) {run : Uuid}
    (hchanged : (σ.after w).run run ≠ w.rows.run run) (hover : (σ.after w).Over job run) :
    r.Doomed (σ.after w) job := by
  obtain ⟨_, old, new, hold, hnew, _, hremoves⟩ := h.hidden hchanged
  obtain ⟨row, input, hrow, hinput, hrun⟩ := hover
  obtain ⟨base, hbase, hworkspace, hsame, _⟩ := h.after_job hrow
  obtain ⟨input', hinput', hinputWorkspace⟩ := hinv.inputs job base hbase
  have hbaseInput : w.rows.jobInput base = some input := by
    rw [Store.jobInput, hsame]
    exact (h.after_input _).symm.trans hinput
  obtain rfl := Option.some.inj (hinput'.symm.trans hbaseInput)
  obtain ⟨found, hfound, hplaced⟩ := hinv.placed base.input input' hinput' run hrun
  obtain rfl := Option.some.inj (hfound.symm.trans hold)
  refine ⟨row, input', hrow, hinput, h.lawful.covers hremoves hnew ?_ hrun⟩
  rw [hplaced, hinputWorkspace, hworkspace]

/-- The transaction changes one more row, which no job is covered for less. -/
theorem write (h : Removing p s r σ₀ σ w) {k : Key} (hlocked : σ.locks k = some .exclusive)
    {row : Option (Row k)} (hallows : (r.footprint σ₀.now).Allows k (w.rows.lookup k) row)
    (hrun : ∀ run, k ≠ .run run) (hinput : ∀ i, k ≠ .input i)
    (hjob : ∀ job, k = .job job → r.Doomed (σ.after w) job ∧ ∀ old,
      (σ.after w).job job = some old → ∃ new, ((σ.write k row).after w).job job = some new ∧
        new.workspace = old.workspace ∧ new.input = old.input)
    (hattempt : ∀ job n, k = .attempt job n → r.Doomed (σ.after w) job)
    (hartifact : ∀ job kind, k = .artifact job kind → w.rows.Terminal job) :
    Removing p s r σ₀ (σ.write k row) w := by
  have hruns : ∀ run, ((σ.write k row).after w).run run = (σ.after w).run run :=
    fun run => Session.view_write_ne σ row w.store (hrun run).symm
  have hkept : ∀ job, r.Doomed (σ.after w) job → r.Doomed ((σ.write k row).after w) job := by
    intro job hdoomed
    refine hdoomed.mono h.lawful (fun old hold => ?_) (fun i input hfound => ?_)
      fun run found hfound _ => (hruns run).trans hfound
    · by_cases hk : k = .job job
      · exact (hjob job hk).2 old hold
      · exact ⟨old, (Session.view_write_ne σ row w.store (Ne.symm hk)).trans hold, rfl, rfl⟩
    · exact (Session.view_write_ne σ row w.store (hinput i).symm).trans hfound
  refine ⟨h.toWorking.write hlocked hallows, h.lawful, ?_, ?_, ?_, ?_⟩
  · intro run htarget
    obtain ⟨hchanged, found, hfound, hstate⟩ := h.target run htarget
    exact ⟨fun hsame => hchanged ((hruns run).symm.trans hsame), found,
      (hruns run).trans hfound, hstate⟩
  · intro job n hchanged
    by_cases hk : k = .attempt job n
    · exact hkept job (hattempt job n hk)
    · refine hkept job (h.attempts job n ?_)
      rwa [Store.attempt, Session.view_write_ne σ row w.store (Ne.symm hk)] at hchanged
  · intro job hchanged
    by_cases hk : k = .job job
    · exact hkept job (hjob job hk).1
    · refine hkept job (h.jobs job ?_)
      rwa [Store.job, Session.view_write_ne σ row w.store (Ne.symm hk)] at hchanged
  · intro job kind hchanged
    by_cases hk : k = .artifact job kind
    · exact hartifact job kind hk
    · refine h.artifacts job kind ?_
      rwa [Store.artifact, Session.view_write_ne σ row w.store (Ne.symm hk)] at hchanged

/-- A running attempt of a doomed job is cancelled. -/
theorem writeAttempt (h : Removing p s r σ₀ σ w) {n : ℤ} {attempt : AttemptRow}
    (hlocked : σ.locks (.attempt job n) = some .exclusive)
    (hattempt : (σ.after w).attempt job n = some attempt) (hstate : attempt.state = .running)
    (hdoomed : r.Doomed (σ.after w) job) :
    Removing p s r σ₀ (σ.write (.attempt job n) (some (attempt.cancel σ₀.now))) w := by
  refine h.write hlocked (.inr ⟨attempt, ?_, hstate, rfl⟩) (by simp) (by simp) (by simp) ?_ (by simp)
  · exact CancelsAttempt.running (h.keeps.allows (.attempt job n)) hattempt hstate
  · rintro job' n' hk
    cases hk
    exact hdoomed

/-- A doomed job that is not over is cancelled. -/
theorem writeJob (h : Removing p s r σ₀ σ w) {row : JobRow}
    (hlocked : σ.locks (.job job) = some .exclusive) (hrow : (σ.after w).job job = some row)
    (hlive : row.state.terminal = false) (hdoomed : r.Doomed (σ.after w) job) :
    Removing p s r σ₀ (σ.write (.job job) (some (row.cancelDerived σ₀.now))) w := by
  have hbase : w.rows.job job = some row := by
    obtain ⟨base, hbase, _, _, rfl | ⟨_, rfl⟩⟩ := h.after_job hrow
    · exact hbase
    · simp at hlive
  refine h.write hlocked (.inr ⟨row, hbase, hlive, rfl⟩) (by simp) (by simp) ?_ (by simp) (by simp)
  rintro job' hk
  cases hk
  refine ⟨hdoomed, fun old hold => ⟨_, Session.view_write_self σ _ _ _, ?_⟩⟩
  obtain rfl := Option.some.inj (hold.symm.trans hrow)
  exact ⟨rfl, rfl⟩

/-- A row is written that says nothing about jobs and runs. -/
theorem writeOther (h : Removing p s r σ₀ σ w) {k : Key} (hlocked : σ.locks k = some .exclusive)
    (row : Option (Row k)) (hallows : (r.footprint σ₀.now).Allows k (w.rows.lookup k) row)
    (hrun : ∀ run, k ≠ .run run) (hinput : ∀ i, k ≠ .input i) (howner : k.owner = none) :
    Removing p s r σ₀ (σ.write k row) w := by
  refine h.write hlocked hallows hrun hinput ?_ ?_ ?_
  · rintro job rfl
    simp [Key.owner] at howner
  · rintro job n rfl
    simp [Key.owner] at howner
  · rintro job kind rfl
    simp [Key.owner] at howner

end Removing

end Stability

section Quiet

/-- Doomed jobs have no attempts running but the pending ones. -/
def Quiet (r : Removal) (pending : Uuid × ℤ → Prop) (store : Store) : Prop :=
  ∀ job n attempt, r.Doomed store job → store.attempt job n = some attempt →
    attempt.state = .running → pending (job, n)

/-- Once its call has begun `k` statements, a removal is not overtaken by claims: a job
with a running attempt that it covers after a commit of another session was covered
before, and that session did not claim it. -/
def Removal.Fences (p : Policy) (s : Service) (r : Removal) (call : Call) (now : Timestamp)
    (k : ℕ) : Prop :=
  p.fenced → ∀ {σ τ : Session} {w : World} {reply : Reply} {job : Uuid} {row row' : JobRow}
    {input : InputRow}, k ≤ σ.statements → Contract.Keeps (r.footprint now) σ w →
    σ.Compatible τ → τ.Owned → FencedApart call now σ.statements τ w → Guarantee p s τ reply w →
    ¬ (jobView (τ.after w) job).Idle →
    (∀ run ∈ input.runs, w.rows.Over job run ∧ (τ.after w).Over job run) →
    row'.workspace = row.workspace →
    r.condition (σ.after (w.commit τ reply)) row input = true →
    r.condition (σ.after w) row' input = true ∧ ¬ τ.call.Claims job

/-- A running attempt belongs to a job that existed before, and it ran before unless the
job is just claimed. -/
theorem Guarantee.running_before {τ : Session} {reply : Reply} (h : Guarantee p s τ reply w)
    (hinv : Consistent p s w.rows) {n : ℤ} {row : JobRow} {attempt : AttemptRow}
    (hrow : (τ.after w).job job = some row) (hattempt : (τ.after w).attempt job n = some attempt)
    (hstate : attempt.state = .running) : ∃ old, w.rows.job job = some old ∧
      row.workspace = old.workspace ∧ row.input = old.input ∧ (τ.call.Claims job ∨
        ∃ attempt', w.rows.attempt job n = some attempt' ∧ attempt'.state = .running) := by
  have hbegins : w.rows.attempt job n = none → τ.call.Claims job :=
    fun hnone => h.attemptsBegin job n hnone (by simp [hattempt])
  cases hold : w.rows.job job with
  | none =>
    have hclaims := hbegins (((hinv.jobs job).absent hold).1 n)
    obtain ⟨worker, jobID, version, token, hcall, _⟩ := hclaims
    have hdraws := (h.newJobs job row hold hrow).1
    simp [hcall, Call.draws] at hdraws
  | some old =>
    obtain ⟨row', hrow', hworkspace, hsame, _⟩ := h.job_some hold
    obtain rfl := Option.some.inj (hrow'.symm.trans hrow)
    refine ⟨old, rfl, hworkspace, hsame, ?_⟩
    by_cases hnone : w.rows.attempt job n = none
    · exact .inl (hbegins hnone)
    · exact .inr ((h.jobs job).attempt_running hnone hattempt hstate)

/-- Another session's commit starts no attempt of a doomed job. -/
theorem Quiet.commit {pending : Uuid × ℤ → Prop} {k : ℕ} {τ : Session} {reply : Reply}
    (hfences : r.Fences p s σ.call σ.now k) (hfenced : p.fenced) (hk : k ≤ σ.statements)
    (h : Removing p s r σ₀ σ w) (h' : Removing p s r σ₀ σ (w.commit τ reply))
    (hq : Quiet r pending (σ.after w))
    (hinv : Consistent p s w.rows) (hcompatible : σ.Compatible τ) (howned : τ.Owned)
    (hapart : FencedApart σ.call σ.now σ.statements τ w) (hguar : Guarantee p s τ reply w) :
    Quiet r pending (σ.after (w.commit τ reply)) := by
  rintro job n attempt ⟨row, input, hrow, hinput, hcondition⟩ hattempt hstate
  -- the committed rows of the job, after and before
  have hbaseAttempt : (τ.after w).attempt job n = some attempt :=
    CancelsAttempt.running (h'.keeps.allows (.attempt job n)) hattempt hstate
  obtain ⟨base, hbase, hbaseWorkspace, hbaseInput, _⟩ := h'.after_job hrow
  obtain ⟨old, hold, hworkspace, hsame, hbefore⟩ :=
    hguar.running_before hinv hbase hbaseAttempt hstate
  obtain ⟨row₁, hrow₁, hworkspace₁, hsame₁⟩ := h.job_after hold
  have hsame₂ : row₁.input = row.input := hsame₁.trans (hsame.symm.trans hbaseInput)
  obtain ⟨found, hfound, _⟩ := hinv.inputs job old hold
  have hfound' : (τ.after w).jobInput base = some found := hguar.jobInput hfound hsame
  have hfoundInput : found = input := by
    have hlast : (τ.after w).jobInput base = some input := by
      rw [Store.jobInput, hbaseInput]
      exact (h'.after_input _).symm.trans hinput
    exact Option.some.inj (hfound'.symm.trans hlast)
  subst hfoundInput
  obtain ⟨hdoomed, hclaims⟩ := hfences hfenced hk (h.now ▸ h.keeps) hcompatible
    howned hapart hguar (fun hidle => hidle n attempt hbaseAttempt hstate)
    (fun run hrun => ⟨⟨old, found, hold, hfound, hrun⟩, ⟨base, found, hbase, hfound', hrun⟩⟩)
    (hworkspace₁.trans (hworkspace.symm.trans hbaseWorkspace)) hcondition
  have hdoomed₁ : r.Doomed (σ.after w) job := by
    refine ⟨row₁, found, hrow₁, ?_, hdoomed⟩
    rw [Store.jobInput, hsame₁]
    exact (h.after_input _).trans hfound
  obtain ⟨attempt', hattempt', hstate'⟩ := hbefore.resolve_left hclaims
  cases hwrites : σ.writes.lookup (.attempt job n) with
  | none => exact hq job n attempt' hdoomed₁ ((after_lookup hwrites).trans hattempt') hstate'
  | some written =>
    have hlast : (σ.after (w.commit τ reply)).attempt job n = (σ.after w).attempt job n := by
      simp only [Store.attempt, Session.after, Session.view, Writes.lookup_apply, hwrites,
        Option.getD_some]
    exact hq job n attempt hdoomed₁ (hlast.symm.trans hattempt) hstate

/-- Nothing that the others do starts an attempt of a doomed job. -/
theorem Quiet.rely {pending : Uuid × ℤ → Prop} {k : ℕ} (hfences : r.Fences p s σ.call σ.now k)
    (hfenced : p.fenced) (hk : k ≤ σ.statements) (h : Removing p s r σ₀ σ w)
    (hq : Quiet r pending (σ.after w)) (hrely : (contract p s).Rely σ w w') :
    Quiet r pending (σ.after w') := by
  have hboth := Contract.Rely.preserves
    (fun w => Removing p s r σ₀ σ w ∧ Quiet r pending (σ.after w)) ?_ hrely ⟨h, hq⟩
  · exact hboth.2
  rintro w₁ w₂ hinv hstep hinv' ⟨h₁, hq₁⟩
  have h₂ : Removing p s r σ₀ σ w₂ :=
    h₁.later (.of_rely (Relation.ReflTransGen.single ⟨hinv, hstep, hinv'⟩))
  refine ⟨h₂, ?_⟩
  cases hstep with
  | tick n => exact hq₁
  | draw => exact hq₁
  | refuse τ error _ => exact hq₁
  | commit τ reply hcompatible howned hapart _ hguar =>
    exact hq₁.commit hfences hfenced hk h₁ h₂ hinv hcompatible howned (hapart.1 hfenced) hguar

/-- While a removal fences, no new attempt begins on a condemned job: claims are kept apart
from it from the statement `k` on. -/
theorem Quiet.later {pending : Uuid × ℤ → Prop} {k : ℕ} (hfences : r.Fences p s σ.call σ.now k)
    (hfenced : p.fenced) (hk : k ≤ σ.statements) (h : Removing p s r σ₀ σ w)
    (hq : Quiet r pending (σ.after w)) (hlater : (contract p s).Later σ w σ' w') :
    Quiet r pending (σ'.after w') := by
  have hlast := hq.rely hfences hfenced hk h hlater.rely
  rwa [Session.after, Session.view, ← hlater.writes] at hlast

/-- A store in which no job is covered that was not, and no attempt runs that did not. -/
theorem Quiet.mono {pending pending' : Uuid × ℤ → Prop} {store store' : Store}
    (hlawful : r.Lawful now) (hq : Quiet r pending store)
    (hjob : ∀ job row', store'.job job = some row' → ∃ row, store.job job = some row ∧
      row.workspace = row'.workspace ∧ row.input = row'.input)
    (hinput : ∀ i, store'.input i = store.input i) (hrun : ∀ run, store'.run run = store.run run)
    (hattempt : ∀ job n attempt, store'.attempt job n = some attempt → attempt.state = .running →
      store.attempt job n = some attempt ∧ (pending (job, n) → pending' (job, n))) :
    Quiet r pending' store' := by
  intro job n attempt hdoomed hfound hstate
  obtain ⟨hbefore, hpending⟩ := hattempt job n attempt hfound hstate
  refine hpending (hq job n attempt ?_ hbefore hstate)
  exact hdoomed.mono hlawful (hjob job) (fun i input hi => (hinput i).symm.trans hi)
    fun run found hfound _ => (hrun run).symm.trans hfound

/-- A write to a row that is neither a run, an input, a job nor an attempt. -/
theorem Quiet.writeOther {pending : Uuid × ℤ → Prop} (hlawful : r.Lawful now)
    (hq : Quiet r pending (σ.after w)) {k : Key} (row : Option (Row k)) (hrun : ∀ run, k ≠ .run run)
    (hinput : ∀ i, k ≠ .input i) (hjob : ∀ job, k ≠ .job job) (hattempt : ∀ job n, k ≠ .attempt job n) :
    Quiet r pending ((σ.write k row).after w) := by
  refine hq.mono hlawful (fun job row' hrow' => ⟨row', ?_, rfl, rfl⟩) (fun i => ?_) (fun run => ?_)
    fun job n attempt hfound _ => ⟨?_, id⟩
  · exact (Session.view_write_ne σ row w.store (hjob job).symm).symm.trans hrow'
  · exact Session.view_write_ne σ row w.store (hinput i).symm
  · exact Session.view_write_ne σ row w.store (hrun run).symm
  · exact (Session.view_write_ne σ row w.store (hattempt job n).symm).symm.trans hfound

/-- A job row is rewritten in place. -/
theorem Quiet.writeJob {pending : Uuid × ℤ → Prop} (hlawful : r.Lawful now)
    (hq : Quiet r pending (σ.after w)) {row row' : JobRow} (hrow : (σ.after w).job job = some row)
    (hworkspace : row'.workspace = row.workspace) (hinput : row'.input = row.input) :
    Quiet r pending ((σ.write (.job job) (some row')).after w) := by
  refine hq.mono hlawful (fun other found hfound => ?_) (fun i => ?_) (fun run => ?_)
    fun other n attempt hfound _ => ⟨?_, id⟩
  · by_cases hother : other = job
    · subst hother
      have hself : ((σ.write (.job other) (some row')).after w).job other = some row' :=
        Session.view_write_self σ (.job other) _ w.store
      obtain rfl := Option.some.inj (hself.symm.trans hfound)
      exact ⟨row, hrow, hworkspace.symm, hinput.symm⟩
    · have hne : Key.job other ≠ .job job := by simpa using hother
      exact ⟨found, (Session.view_write_ne σ _ w.store hne).symm.trans hfound, rfl, rfl⟩
  · exact Session.view_write_ne σ _ w.store (by simp)
  · exact Session.view_write_ne σ _ w.store (by simp)
  · exact (Session.view_write_ne σ _ w.store (by simp)).symm.trans hfound

/-- An attempt is cancelled and no longer pending. -/
theorem Quiet.writeAttempt {pending pending' : Uuid × ℤ → Prop} (hlawful : r.Lawful now)
    (hq : Quiet r pending (σ.after w)) {n : ℤ} {attempt : AttemptRow} (hstate : attempt.state ≠ .running)
    (hpending : ∀ key, key ≠ (job, n) → pending key → pending' key) :
    Quiet r pending' ((σ.write (.attempt job n) (some attempt)).after w) := by
  refine hq.mono hlawful (fun other row' hrow' => ⟨row', ?_, rfl, rfl⟩) (fun i => ?_)
    (fun run => ?_) fun other m found hfound hrunning => ?_
  · exact (Session.view_write_ne σ _ w.store (by simp)).symm.trans hrow'
  · exact Session.view_write_ne σ _ w.store (by simp)
  · exact Session.view_write_ne σ _ w.store (by simp)
  · by_cases hkey : (other, m) = (job, n)
    · cases hkey
      have hself : ((σ.write (.attempt job n) (some attempt)).after w).attempt job n = some attempt :=
        Session.view_write_self σ (.attempt job n) _ w.store
      obtain rfl := Option.some.inj (hself.symm.trans hfound)
      exact absurd hrunning hstate
    · have hne : Key.attempt other m ≠ .attempt job n := by simpa using hkey
      exact ⟨(Session.view_write_ne σ _ w.store hne).symm.trans hfound, hpending _ hkey⟩

end Quiet

section Statements

/-- The attempts that the fencing statement selects. -/
def Removal.fenced (r : Removal) (store : Store) : List (Uuid × ℤ) :=
  store.attempts.filter fun key => (store.attempt key.1 key.2).any fun row =>
    row.state = .running && store.jobOver key.1 (r.condition store)

/-- Where the fencing statement stands that began on a snapshot. -/
structure Fencing (p : Policy) (s : Service) (r : Removal) (k : ℕ) (σ₀ : Session) (store : Store)
    (done : List (Uuid × ℤ)) (σ : Session) (w : World) : Prop extends Removing p s r σ₀ σ w where
  counted : k ≤ σ.statements
  doomed : ∀ job, r.Doomed store job → r.Doomed (σ.after w) job
  quiet : p.fenced → Quiet r (fun key => key ∈ r.fenced store ∧ key ∉ done) (σ.after w)

/-- The fencing statement leaves no attempt of a covered job running. -/
theorem wp_fenceDerived {k : ℕ}
    {post : Except Err (List ((_ : Uuid × ℤ) × AttemptRow)) → Session → World → Prop}
    (h : Removing p s r σ₀ σ w) (hnow : σ₀.now = now) (hfences : r.Fences p s σ₀.call σ₀.now k)
    (hk : k ≤ σ.statements + 1)
    (hok : ∀ updated σ' w', Removing p s r σ₀ σ' w' → k ≤ σ'.statements →
      (p.fenced → Quiet r (fun _ => False) (σ'.after w')) → post (.ok updated) σ' w') :
    (contract p s).wp (fenceDerived now r.condition) post σ w := by
  unfold fenceDerived
  refine Contract.wp_update (Fencing p s r k σ₀) ?_ ?_ ?_ ?_ ?_
  · intro σ' w' hlater hstatements _
    refine ⟨h.later hlater, by omega, fun _ => id, fun _ job n attempt hdoomed hattempt hstate => ?_⟩
    refine ⟨List.mem_filter.mpr ⟨Store.mem_attempts.mpr ?_, ?_⟩, by simp⟩
    · exact fun hnone => by simp [hnone] at hattempt
    · have hover := (r.doomed_iff _ job).mp hdoomed
      rw [show Store.attempt (σ'.view w'.store) job n = some attempt from hattempt]
      simp only [Option.any_some, hstate, decide_true, Bool.true_and]
      exact hover
  · intro store done σ₁ w₁ σ₂ w₂ h₁ hlater _
    refine ⟨h₁.later hlater, h₁.counted.trans hlater.statements, fun job hdoomed => ?_,
      fun hfenced => ?_⟩
    · exact h₁.doomed_later hlater (h₁.doomed job hdoomed)
    · refine (h₁.quiet hfenced).later ?_ hfenced h₁.counted h₁.toRemoving hlater
      rw [h₁.call, h₁.now]
      exact hfences
  · rintro store done key σ₁ w₁ _ hselected h₁ _ _ hskip
    refine ⟨h₁.toRemoving, h₁.counted, h₁.doomed, fun hfenced => ?_⟩
    refine (h₁.quiet hfenced).mono h₁.lawful (fun _ row hrow => ⟨row, hrow, rfl, rfl⟩)
      (fun _ => rfl) (fun _ => rfl) fun job n attempt hattempt hstate => ⟨hattempt, ?_⟩
    rintro ⟨hmem, hnot⟩
    refine ⟨hmem, fun hdone => ?_⟩
    rcases List.mem_append.mp hdone with hdone | hlast
    · exact hnot hdone
    · -- the attempt is still running, so the statement did not skip it
      obtain rfl := List.mem_singleton.mp hlast
      obtain ⟨row, _, hqualifies⟩ := (Option.any_eq_true _ _).mp hselected
      rw [show (σ₁.view w₁.store).lookup (.attempt job n) = some attempt from hattempt] at hskip
      simp only [Bool.and_eq_true] at hqualifies
      simp [hstate, hqualifies.2] at hskip
  · rintro store done key row σ₁ w₁ _ _ h₁ _ hlocked hrow hqualifies
    simp only [Bool.and_eq_true, decide_eq_true_eq] at hqualifies
    have hdoomed := h₁.doomed _ ((r.doomed_iff store key.1).mpr hqualifies.2)
    have hwritten := h₁.writeAttempt hlocked hrow hqualifies.1 hdoomed
    rw [hnow] at hwritten
    refine ⟨hwritten, h₁.counted, fun job hbefore => ?_, fun hfenced => ?_⟩
    · refine (h₁.doomed job hbefore).mono h₁.lawful (fun found hfound => ⟨found, ?_, rfl, rfl⟩)
        (fun i input hfound => ?_) fun run found hfound _ => ?_
      · exact (Session.view_write_ne σ₁ _ w₁.store (by simp)).trans hfound
      · exact (Session.view_write_ne σ₁ _ w₁.store (by simp)).trans hfound
      · exact (Session.view_write_ne σ₁ _ w₁.store (by simp)).trans hfound
    · refine (h₁.quiet hfenced).writeAttempt h₁.lawful (by simp) ?_
      rintro other hne ⟨hmem, hnot⟩
      refine ⟨hmem, fun hdone => ?_⟩
      rcases List.mem_append.mp hdone with hdone | hlast
      · exact hnot hdone
      · exact hne (List.mem_singleton.mp hlast)
  · intro store updated σ₁ w₁ h₁
    refine hok updated σ₁ w₁ h₁.toRemoving h₁.counted fun hfenced => ?_
    refine (h₁.quiet hfenced).mono h₁.lawful (fun _ row hrow => ⟨row, hrow, rfl, rfl⟩)
      (fun _ => rfl) (fun _ => rfl) fun job n attempt hattempt _ => ⟨hattempt, ?_⟩
    exact fun hpending => hpending.2 hpending.1

/-- The jobs that the cancelling statement selects. -/
def Removal.cancelled (r : Removal) (store : Store) : List Uuid :=
  store.jobs.filter fun job => (store.job job).any fun row =>
    row.cancellable && (store.jobInput row).any (r.condition store row)

/-- Where a removal stands once the jobs `D` are covered for the last time: they are over
but for the pending ones, and nothing else has been changed. -/
structure Cancelling (p : Policy) (s : Service) (r : Removal) (k : ℕ) (σ₀ : Session)
    (D pending : Uuid → Prop) (σ : Session) (w : World) : Prop extends Removing p s r σ₀ σ w where
  fences : r.Fences p s σ₀.call σ₀.now k
  counted : k ≤ σ.statements
  quiet : p.fenced → Quiet r (fun _ => False) (σ.after w)
  fencedOf : ∀ job n, (σ.after w).attempt job n ≠ w.rows.attempt job n → D job
  covered : s.CollisionFree → ∀ job run, (σ.after w).run run ≠ w.rows.run run →
    (σ.after w).Over job run → D job
  isOver : ∀ job, D job → (σ.after w).Terminal job ∨ pending job
  doomed : ∀ job, D job → r.Doomed (σ.after w) job

namespace Cancelling

variable {k : ℕ} {D pending pending' : Uuid → Prop}

/-- The invariant of the cancelling part holds on while the others commit. -/
theorem later (h : Cancelling p s r k σ₀ D pending σ w)
    (hlater : (contract p s).Later σ w σ' w') : Cancelling p s r k σ₀ D pending σ' w' where
  toRemoving := h.toRemoving.later hlater
  fences := h.fences
  counted := h.counted.trans hlater.statements
  quiet hfenced := by
    refine (h.quiet hfenced).later ?_ hfenced h.counted h.toRemoving hlater
    rw [h.call, h.now]
    exact h.fences
  fencedOf job n hchanged := h.fencedOf job n (h.changed_before hlater hchanged)
  covered hfree job run hchanged hover := by
    have hbefore : (σ.after w).run run ≠ w.rows.run run := h.changed_before hlater hchanged
    refine h.covered hfree job run hbefore (h.over_iff.mpr ?_)
    exact rely_over hlater.rely hfree (h.hidden hbefore).1
      ((h.toRemoving.later hlater).over_iff.mp hover)
  isOver job hjob := (h.isOver job hjob).imp_left fun hterminal => h.terminal_later hlater hterminal
  doomed job hjob := h.doomed_later hlater (h.doomed job hjob)

/-- A row is written that is neither a run, an input, a job nor an attempt. -/
theorem writeOther (h : Cancelling p s r k σ₀ D pending σ w) {k' : Key} {row : Option (Row k')}
    (hwritten : Removing p s r σ₀ (σ.write k' row) w) (hrun : ∀ run, k' ≠ .run run)
    (hinput : ∀ i, k' ≠ .input i) (hjob : ∀ job, k' ≠ .job job)
    (hattempt : ∀ job n, k' ≠ .attempt job n) :
    Cancelling p s r k σ₀ D pending (σ.write k' row) w := by
  have hjobs : ∀ job, ((σ.write k' row).after w).job job = (σ.after w).job job :=
    fun job => Session.view_write_ne σ row w.store (hjob job).symm
  have hruns : ∀ run, ((σ.write k' row).after w).run run = (σ.after w).run run :=
    fun run => Session.view_write_ne σ row w.store (hrun run).symm
  refine ⟨hwritten, h.fences, h.counted, ?_, ?_, ?_, ?_, ?_⟩
  · exact fun hfenced => (h.quiet hfenced).writeOther h.lawful row hrun hinput hjob hattempt
  · intro job n hchanged
    refine h.fencedOf job n ?_
    rwa [Store.attempt, Session.view_write_ne σ row w.store (hattempt job n).symm] at hchanged
  · intro hfree job run hchanged hover
    rw [hruns] at hchanged
    exact h.covered hfree job run hchanged (h.over_iff.mpr (hwritten.over_iff.mp hover))
  · intro job hD
    refine (h.isOver job hD).imp_left ?_
    rintro ⟨found, hfound, hstate⟩
    exact ⟨found, (hjobs job).trans hfound, hstate⟩
  · intro job hD
    refine (h.doomed job hD).mono h.lawful (fun found hfound => ⟨found, ?_, rfl, rfl⟩)
      (fun i input hfound => ?_) fun run found hfound _ => (hruns run).trans hfound
    · exact (hjobs job).trans hfound
    · exact (Session.view_write_ne σ row w.store (hinput i).symm).trans hfound

/-- A pending job is cancelled. -/
theorem writeJob (h : Cancelling p s r k σ₀ D pending σ w) {row : JobRow}
    (hlocked : σ.locks (.job job) = some .exclusive) (hrow : (σ.after w).job job = some row)
    (hlive : row.state.terminal = false) (hdoomed : D job) (pending' : Uuid → Prop)
    (hpending : ∀ other, other ≠ job → pending other → pending' other) :
    Cancelling p s r k σ₀ D pending' (σ.write (.job job) (some (row.cancelDerived σ₀.now))) w := by
  have hwritten := h.toRemoving.writeJob hlocked hrow hlive (h.doomed job hdoomed)
  have hruns : ∀ run, ((σ.write (.job job) (some (row.cancelDerived σ₀.now))).after w).run run =
      (σ.after w).run run := fun run => Session.view_write_ne σ _ w.store (by simp)
  have hself : ((σ.write (.job job) (some (row.cancelDerived σ₀.now))).after w).job job =
      some (row.cancelDerived σ₀.now) := Session.view_write_self σ (.job job) _ w.store
  refine ⟨hwritten, h.fences, h.counted, ?_, ?_, ?_, ?_, ?_⟩
  · exact fun hfenced => (h.quiet hfenced).writeJob h.lawful hrow rfl rfl
  · intro other n hchanged
    refine h.fencedOf other n ?_
    rwa [Store.attempt, Session.view_write_ne σ _ w.store (by simp)] at hchanged
  · intro hfree other run hchanged hover
    rw [hruns] at hchanged
    exact h.covered hfree other run hchanged (h.over_iff.mpr (hwritten.over_iff.mp hover))
  · intro other hD
    by_cases hother : other = job
    · subst hother
      exact .inl ⟨_, hself, by simp⟩
    · have hne : Key.job other ≠ .job job := by simpa using hother
      refine (h.isOver other hD).imp ?_ (hpending other hother)
      rintro ⟨found, hfound, hstate⟩
      exact ⟨found, (Session.view_write_ne σ _ w.store hne).trans hfound, hstate⟩
  · intro other hD
    refine (h.doomed other hD).mono h.lawful (fun found hfound => ?_) (fun i input hfound => ?_)
      fun run found hfound _ => (hruns run).trans hfound
    · by_cases hother : other = job
      · subst hother
        obtain rfl := Option.some.inj (hfound.symm.trans hrow)
        exact ⟨_, hself, rfl, rfl⟩
      · have hne : Key.job other ≠ .job job := by simpa using hother
        exact ⟨found, (Session.view_write_ne σ _ w.store hne).trans hfound, rfl, rfl⟩
    · exact (Session.view_write_ne σ _ w.store (by simp)).trans hfound

/-- Fewer jobs are pending once some of them are over. -/
theorem mono (h : Cancelling p s r k σ₀ D pending σ w)
    (hpending : ∀ job, D job → pending job → (σ.after w).Terminal job ∨ pending' job) :
    Cancelling p s r k σ₀ D pending' σ w :=
  { h with isOver := fun job hD => (h.isOver job hD).elim .inl (hpending job hD) }

/-- An audit record is no part of the cancelling. -/
theorem writeAudit (h : Cancelling p s r k σ₀ D pending σ w) {id : ℕ}
    (hlocked : σ.locks (.audit id) = some .exclusive) (row : Option AuditRow) :
    Cancelling p s r k σ₀ D pending (σ.write (.audit id) row) w :=
  h.writeOther (h.toRemoving.writeOther hlocked row trivial (by simp) (by simp) rfl)
    (by simp) (by simp) (by simp) (by simp)

end Cancelling

/-- The cancelling statement leaves no covered job that is not over. -/
theorem wp_cancelDerived {k : ℕ} {actorType : String} {post : Except Err Unit → Session → World → Prop}
    (h : Removing p s r σ₀ σ w) (hnow : σ₀.now = now) (hfences : r.Fences p s σ₀.call σ₀.now k)
    (hk : k ≤ σ.statements) (hquiet : p.fenced → Quiet r (fun _ => False) (σ.after w))
    (hok : ∀ D σ' w', Cancelling p s r k σ₀ D (fun _ => False) σ' w' → post (.ok ()) σ' w') :
    (contract p s).wp (cancelDerived now actorType r.condition) post σ w := by
  unfold cancelDerived
  refine Contract.wp_seq (fun _ σ' w' => ∃ D, Cancelling p s r k σ₀ D (fun _ => False) σ' w') ?_ ?_
  · refine Contract.wp_update (fun store done σ' w' =>
      Cancelling p s r k σ₀ (r.Doomed store) (fun job => job ∈ r.cancelled store ∧ job ∉ done) σ' w' ∧
      ∀ job row, Store.job store job = some row → ∃ row', (σ'.after w').job job = some row' ∧
        row'.workspace = row.workspace ∧ row'.input = row.input) ?_ ?_ ?_ ?_ ?_
    · intro σ' w' hlater _ hinv
      have h' := h.later hlater
      refine ⟨⟨h', hfences, hk.trans hlater.statements, fun hfenced => ?_, h'.attempts,
        fun _ job run hchanged hover => h'.doomed_of_over hinv hchanged hover, ?_, fun _ => id⟩,
        fun job row hrow => ⟨row, hrow, rfl, rfl⟩⟩
      · refine (hquiet hfenced).later ?_ hfenced hk h hlater
        rw [h.call, h.now]
        exact hfences
      · rintro job ⟨row, input, hrow, hinput, hcondition⟩
        cases hlive : row.state.terminal with
        | true => exact .inl ⟨row, hrow, hlive⟩
        | false =>
          refine .inr ⟨List.mem_filter.mpr ⟨Store.mem_jobs.mpr ?_, ?_⟩, by simp⟩
          · exact fun hnone => by simp [show Store.job (σ'.view w'.store) job = some row from hrow] at hnone
          · rw [show Store.job (σ'.view w'.store) job = some row from hrow]
            simp only [Option.any_some, Bool.and_eq_true]
            refine ⟨row.cancellable_iff.mpr hlive, ?_⟩
            rw [show Store.jobInput (σ'.view w'.store) row = some input from hinput]
            exact hcondition
    · rintro store done σ₁ w₁ σ₂ w₂ ⟨h₁, hkept⟩ hlater _
      refine ⟨h₁.later hlater, fun job row hrow => ?_⟩
      obtain ⟨row₁, hrow₁, hworkspace₁, hinput₁⟩ := hkept job row hrow
      obtain ⟨row₂, hrow₂, hworkspace₂, hinput₂⟩ := h₁.job_later hlater hrow₁
      exact ⟨row₂, hrow₂, hworkspace₂.trans hworkspace₁, hinput₂.trans hinput₁⟩
    · rintro store done job σ₁ w₁ _ hselected ⟨h₁, hkept⟩ _ _ hskip
      refine ⟨h₁.mono fun other hD hpending => ?_, hkept⟩
      by_cases hother : other = job
      · subst hother
        -- the row still satisfies the condition, so it is skipped only when the job is over
        obtain ⟨row, hrow, hqualifies⟩ := (Option.any_eq_true _ _).mp hselected
        simp only [Bool.and_eq_true] at hqualifies
        obtain ⟨input, hinput, hcondition⟩ := (Option.any_eq_true _ _).mp hqualifies.2
        obtain ⟨row', hrow', hworkspace, hsame⟩ := hkept other row hrow
        have hinput' : Store.jobInput store row' = some input := by
          rw [Store.jobInput, hsame]
          exact hinput
        have hcondition' : r.condition store row' input = true :=
          h₁.lawful.lasts hworkspace (fun _ _ hfound _ => hfound) hcondition
        rw [show (σ₁.view w₁.store).lookup (.job other) = some row' from hrow'] at hskip
        cases hlive : row'.state.terminal with
        | true => exact .inl ⟨row', hrow', hlive⟩
        | false => simp [row'.cancellable_iff.mpr hlive, hinput', hcondition'] at hskip
      · exact .inr ⟨hpending.1, fun hdone => by
          rcases List.mem_append.mp hdone with hdone | hlast
          · exact hpending.2 hdone
          · exact hother (List.mem_singleton.mp hlast)⟩
    · rintro store done job row σ₁ w₁ _ hselected ⟨h₁, hkept⟩ _ hlocked hrow hqualifies
      simp only [Bool.and_eq_true] at hqualifies
      have hdoomed : r.Doomed store job := by
        obtain ⟨row₀, hrow₀, hqualifies₀⟩ := (Option.any_eq_true _ _).mp hselected
        simp only [Bool.and_eq_true] at hqualifies₀
        obtain ⟨input, hinput, hcondition⟩ := (Option.any_eq_true _ _).mp hqualifies₀.2
        exact ⟨row₀, input, hrow₀, hinput, hcondition⟩
      have hwritten := h₁.writeJob hlocked hrow (row.cancellable_iff.mp hqualifies.1) hdoomed
        (fun other => other ∈ r.cancelled store ∧ other ∉ done ++ [job]) ?_
      · rw [hnow] at hwritten
        refine ⟨hwritten, fun other row₀ hrow₀ => ?_⟩
        obtain ⟨row₁, hrow₁, hworkspace₁, hinput₁⟩ := hkept other row₀ hrow₀
        by_cases hother : other = job
        · subst hother
          obtain rfl := Option.some.inj (hrow₁.symm.trans hrow)
          exact ⟨_, Session.view_write_self σ₁ (.job other) _ w₁.store, hworkspace₁, hinput₁⟩
        · have hne : Key.job other ≠ .job job := by simpa using hother
          exact ⟨row₁, (Session.view_write_ne σ₁ _ w₁.store hne).trans hrow₁, hworkspace₁, hinput₁⟩
      · rintro other hne ⟨hmem, hnot⟩
        refine ⟨hmem, fun hdone => ?_⟩
        rcases List.mem_append.mp hdone with hdone | hlast
        · exact hnot hdone
        · exact hne (List.mem_singleton.mp hlast)
    · rintro store updated σ₁ w₁ ⟨h₁, _⟩
      exact ⟨r.Doomed store, h₁.mono fun job _ hpending => absurd hpending.1 hpending.2⟩
  · rintro cancelled σ₁ w₁ ⟨D, h₁⟩
    refine Contract.wp_forEach (fun _ σ' w' => Cancelling p s r k σ₀ D (fun _ => False) σ' w')
      ?_ (hok D) h₁
    intro done entry rest σ₂ w₂ _ h₂
    exact wp_audit fun id row σ₃ w₃ hlater _ hlocked => (h₂.later hlater).writeAudit hlocked row

end Statements

namespace Removing

/-- A job whose rows a removal has left alone. -/
theorem after_jobView (h : Removing p s r σ₀ σ w) (hjob : (σ.after w).job job = w.rows.job job)
    (hattempts : ∀ n, (σ.after w).attempt job n = w.rows.attempt job n)
    (hartifacts : ∀ kind, (σ.after w).artifact job kind = w.rows.artifact job kind) :
    jobView (σ.after w) job = jobView w.rows job := by
  ext1
  · exact hjob
  · exact funext hattempts
  · exact funext hartifacts
  · exact h.keeps.allows (.progress job)

end Removing

namespace Cancelling

variable {k : ℕ} {D : Uuid → Prop} {reply : Reply}

/-- A job that is not over and keeps its row keeps all its rows. -/
theorem jobView_live (h : Cancelling p s r k σ₀ D (fun _ => False) σ w)
    (hsame : (σ.after w).job job = w.rows.job job) (hlive : ¬ w.rows.Terminal job) :
    jobView (σ.after w) job = jobView w.rows job := by
  refine h.after_jobView hsame (fun n => ?_) fun kind => ?_
  · by_contra hchanged
    obtain ⟨row, hrow, hstate⟩ := (h.isOver job (h.fencedOf job n hchanged)).resolve_right id
    exact hlive ⟨row, hsame.symm.trans hrow, hstate⟩
  · by_contra hchanged
    exact hlive (h.artifacts job kind hchanged)

/-- A removal changes each job by at most one step. -/
theorem jobChange (h : Cancelling p s r k σ₀ D (fun _ => False) σ w) (job : Uuid) :
    JobChange p.fenced σ.now (jobView w.rows job) (jobView (σ.after w) job) := by
  have hprogress : (σ.after w).progress job = w.rows.progress job := h.keeps.allows (.progress job)
  rcases h.keeps.allows (.job job) with hsame | ⟨row, hrow, hlive, hnew⟩
  · by_cases hover : w.rows.Terminal job
    · obtain ⟨row, hrow, hterminal⟩ := hover
      have hstep : JobStep p.fenced σ.now (jobView w.rows job) _ := .sweep row
        ((σ.after w).attempt job) ((σ.after w).artifact job) hrow hterminal
        (fun n => h.now ▸ h.keeps.allows (.attempt job n))
        fun kind => h.now ▸ h.keeps.allows (.artifact job kind)
      refine Relation.ReflTransGen.single ?_
      convert hstep using 1
      ext1
      · exact hsame
      · rfl
      · rfl
      · exact hprogress
    · rw [h.jobView_live hsame hover]
      exact .refl
  · have hdoomed : r.Doomed (σ.after w) job := by
      refine h.jobs job fun hsame => ?_
      have heq : some row = some (row.cancelDerived σ₀.now) :=
        hrow.symm.trans (hsame.symm.trans hnew)
      have hstate := congrArg JobRow.state (Option.some.inj heq)
      rw [JobRow.cancelDerived_state] at hstate
      simp [hstate] at hlive
    have hstep : JobStep p.fenced σ.now (jobView w.rows job) _ := .remove row
      ((σ.after w).attempt job) ((σ.after w).artifact job) hrow hlive
      (fun n => h.now ▸ h.keeps.allows (.attempt job n))
      (fun hfenced n attempt hattempt hstate => h.quiet hfenced job n attempt hdoomed hattempt hstate)
      fun kind => h.now ▸ h.keeps.allows (.artifact job kind)
    refine Relation.ReflTransGen.single ?_
    convert hstep using 1
    ext1
    · rw [h.now]
      exact hnew
    · rfl
    · rfl
    · exact hprogress

/-- What the commit of a removal guarantees about the jobs. -/
theorem jobGuarantee (h : Cancelling p s r k σ₀ D (fun _ => False) σ w)
    (hinv : Consistent p s w.rows) : JobGuarantee p s σ w := by
  have hold : ∀ job, w.rows.job job = none → (σ.after w).job job = none := by
    intro job hnone
    rcases h.keeps.allows (.job job) with hsame | ⟨row, hrow, _⟩
    · exact hsame.trans hnone
    · have hcontra : w.rows.job job = some row := hrow
      simp [hcontra] at hnone
  refine ⟨h.jobChange, ?_, ?_, ?_, ?_, ?_, ?_, ?_⟩
  · intro job
    by_cases hsame : (σ.after w).job job = w.rows.job job
    · by_cases hover : w.rows.Terminal job
      · exact .inr (.inr hover)
      · exact .inl (h.jobView_live hsame hover)
    · exact .inr (.inl (h.locked_of_changed (k := .job job) hsame))
  · intro job row hnone hsome
    simp [hold job hnone] at hsome
  · intro job _ hnone hsome
    exact absurd (hold job hnone) hsome
  · rintro _ job run ⟨row, input, hrow, hinput, hoperation, hrun⟩ hlive hterminal
    refine .inr fun found hfound hstate => ?_
    have hchanged : (σ.after w).job job ≠ w.rows.job job := by
      obtain ⟨new, hnew, hover⟩ := hterminal
      exact fun hsame => hlive ⟨new, hsame.symm.trans hnew, hover⟩
    obtain ⟨new, input', hnew, hinput', hcondition⟩ := h.jobs job hchanged
    obtain ⟨base, hbase, _, hsame, _⟩ := h.after_job hnew
    obtain rfl := Option.some.inj (hbase.symm.trans hrow)
    have hbaseInput : w.rows.jobInput base = some input' := by
      rw [Store.jobInput, hsame]
      exact (h.after_input _).symm.trans hinput'
    obtain rfl := Option.some.inj (hbaseInput.symm.trans hinput)
    -- a validation has one input run, and that one is gone
    obtain ⟨gone, hgone, deleted, hdeleted, hdeletedState⟩ := 
      h.lawful.gone (fun run hrun => (h.target run hrun).2) hcondition
    have hlength := hinv.shapes _ _ hinput
    rw [hoperation] at hlength
    obtain ⟨only, honly⟩ := List.length_eq_one_iff.mp hlength
    rw [honly, List.mem_singleton] at hrun hgone
    subst hrun hgone
    obtain rfl := Option.some.inj (hdeleted.symm.trans hfound)
    simp [hstate] at hdeletedState
  · intro job n hnone hsome
    have hcancels : CancelsAttempt σ₀.now (w.rows.attempt job n) ((σ.after w).attempt job n) :=
      h.keeps.allows (.attempt job n)
    exact absurd hnone (hcancels.ne_none_iff.mp hsome)
  · intro job row hrow hqueued
    obtain ⟨base, hbase, _, _, rfl | ⟨_, rfl⟩⟩ := h.after_job hrow
    · exact .inl hbase
    · simp at hqueued
  · intro job row hrow hsucceeded
    obtain ⟨base, hbase, _, _, rfl | ⟨_, rfl⟩⟩ := h.after_job hrow
    · exact .inl hbase
    · simp at hsucceeded

/-- What the commit of a removal guarantees about the runs. -/
theorem runGuarantee (h : Cancelling p s r k σ₀ D (fun _ => False) σ w)
    (hinv : Consistent p s w.rows) : RunGuarantee p s σ w := by
  have hcases : ∀ run old new, w.rows.run run = some old → (σ.after w).run run = some new →
      old = new ∨ new.state = .deleted := by
    intro run old new hold hnew
    rcases h.keeps.allows (.run run) with hsame | ⟨row, row', hrow, hrow', hstate, hremoves⟩
    · exact .inl (Option.some.inj (hold.symm.trans (hsame.symm.trans hnew)))
    · obtain rfl := Option.some.inj (hrow'.symm.trans hnew)
      exact .inr (h.lawful.step hremoves hstate).2.1
  refine ⟨fun run => ?_, ?_, ?_, ?_⟩
  · rcases h.keeps.allows (.run run) with hsame | ⟨row, row', hrow, hrow', hstate, hremoves⟩
    · rw [show (σ.after w).run run = w.rows.run run from hsame]
      exact .same _
    · rw [show w.rows.run run = some row from hrow, show (σ.after w).run run = some row' from hrow',
        h.now]
      exact (h.lawful.step hremoves hstate).1
  · intro run old new hold hnew hstate hdeleted job hover
    have hchanged : (σ.after w).run run ≠ w.rows.run run := by
      intro hsame
      obtain rfl := Option.some.inj (hnew.symm.trans (hsame.trans hold))
      exact hstate hdeleted
    refine ⟨fun hfree => ?_, fun hfenced n attempt hattempt hrunning => ?_⟩
    · exact (h.isOver job (h.covered hfree job run hchanged hover)).resolve_right id
    · exact h.quiet hfenced job n attempt (h.doomed_of_over hinv hchanged hover) hattempt hrunning
  · intro run old new hold hnew hvalidating hend
    rcases hcases run old new hold hnew with rfl | hdeleted
    · simp [hvalidating] at hend
    · simp [hdeleted] at hend
  · intro run old new hold hnew hpending hvalidating
    rcases hcases run old new hold hnew with rfl | hdeleted
    · simp [hpending] at hvalidating
    · simp [hdeleted] at hvalidating

/-- The commit of a removal gives its guarantee. -/
theorem guarantee (h : Cancelling p s r k σ₀ D (fun _ => False) σ w)
    (hinv : Consistent p s w.rows) (hsweeping : r.sweeping → σ.call = .enforceRetention)
    (heffect : Effect p s σ reply w) : Guarantee p s σ reply w where
  toJobGuarantee := h.jobGuarantee hinv
  toRunGuarantee := h.runGuarantee hinv
  toInputGuarantee := .unchanged h.after_input fun workspace digest =>
    h.keeps.allows (.inputDigest workspace digest)
  toOutboxGuarantee := by
    refine ⟨?_, ?_⟩
    · intro job version sent hsent
      rcases h.keeps.allows (.outbox job version) with hsame | ⟨hsweeps, hgone, old, hold, hdue⟩
      · exact .inl ⟨sent, hsame.trans hsent, rfl, rfl⟩
      · obtain rfl := Option.some.inj (hold.symm.trans hsent)
        rw [← h.now] at hdue
        exact .inr ⟨hgone, hsweeping hsweeps, hdue⟩
    · intro job version sent hnone hsome
      rcases h.keeps.allows (.outbox job version) with hsame | ⟨_, hgone, _⟩
      · have hcontra : none = some sent := hnone.symm.trans (hsame.symm.trans hsome)
        cases hcontra
      · have hcontra : none = some sent := hgone.symm.trans hsome
        cases hcontra
  toRecordGuarantee := by
    refine ⟨?_, ?_⟩
    · intro workspace key record hrecord
      rcases h.keeps.allows (.idempotency workspace key) with hsame | ⟨hgone, old, hold, hdue⟩
      · exact .inl (hsame.trans hrecord)
      · obtain rfl := Option.some.inj (hold.symm.trans hrecord)
        exact .inr ⟨hgone, h.now ▸ hdue⟩
    · intro workspace key record hnone hsome
      rcases h.keeps.allows (.idempotency workspace key) with hsame | ⟨hgone, _⟩
      · have hcontra : none = some record := hnone.symm.trans (hsame.symm.trans hsome)
        cases hcontra
      · have hcontra : none = some record := hgone.symm.trans hsome
        cases hcontra
  time := h.now.trans_le h.time
  effect := heffect

end Cancelling

end Tracewake.Hosted
