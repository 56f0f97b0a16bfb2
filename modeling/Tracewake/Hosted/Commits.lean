import Tracewake.Hosted.Working

/-!
# Statements and commits

The rules for the statements of the service, and the guarantees of commits that
touch little: those that change nothing and those that change one job.
-/

namespace Tracewake.Hosted

open ReadCommitted

variable {p : Policy} {s : Service} {σ₀ σ σ' : Session} {w w' : World} {α : Type}

section Statements

variable {c : Contract Row Call Err Reply} {post : Except Err α → Session → World → Prop}

/-- A condition that the transaction checks. -/
theorem wp_require {condition : Bool} {error : Err}
    {post : Except Err Unit → Session → World → Prop} (hok : condition = true → post (.ok ()) σ w)
    (herror : condition = false → post (.error error) σ w) :
    c.wp (require condition error) post σ w := by
  cases condition with
  | true => exact Contract.wp_pure (hok rfl)
  | false => exact Contract.wp_fail (herror rfl)

/-- A parameter of type `uuid`. -/
theorem wp_uuidParam {context text : String} {post : Except Err Uuid → Session → World → Prop}
    (hok : ∀ id, Uuid.parse text = some id → post (.ok id) σ w)
    (herror : post (.error (.database context .invalidText)) σ w) :
    c.wp (uuidParam context text) post σ w := by
  unfold uuidParam
  cases hparse : Uuid.parse text with
  | none => exact Contract.wp_fail herror
  | some id => exact Contract.wp_pure (hok id hparse)

/-- A parameter whose text is known to parse. -/
theorem wp_uuidParam_of_parse {context text : String} {id : Uuid}
    {post : Except Err Uuid → Session → World → Prop} (hparse : Uuid.parse text = some id)
    (hok : post (.ok id) σ w) : c.wp (uuidParam context text) post σ w := by
  unfold uuidParam
  rw [hparse]
  exact Contract.wp_pure hok

/-- An `INSERT`. -/
theorem wp_insertInto {context constraint : String} {key : Key} {row : Row key}
    {post : Except Err Unit → Session → World → Prop}
    (htaken : ∀ w', c.Later σ w σ w' → c.Inv w' → ((σ.after w').lookup key).isSome →
      post (.error (.database context (.uniqueViolation constraint))) σ w')
    (hfree : ∀ σ' w', c.Later σ w σ' w' → c.Inv w' → σ'.locks key = some .exclusive →
      (σ'.after w').lookup key = none → post (.ok ()) (σ'.write key (some row)) w') :
    c.wp (insertInto context constraint key row) post σ w := by
  refine Contract.wp_seq (fun inserted σ' w' => (inserted = true → post (.ok ()) σ' w') ∧
    (inserted = false →
      post (.error (.database context (.uniqueViolation constraint))) σ' w')) ?_ ?_
  · refine Contract.wp_insertRow ?_ ?_
    · exact fun w' hrely hinv htakenKey =>
        ⟨by simp, fun _ => htaken w' (.of_rely hrely) hinv htakenKey⟩
    · exact fun σ' w' hlater hinv hlocked _ hnone =>
        ⟨fun _ => hfree σ' w' hlater hinv hlocked hnone, by simp⟩
  · exact fun inserted σ' w' h => wp_require h.1 h.2

/-- An audit record. -/
theorem wp_audit {now : Timestamp} {workspace : Uuid} {aggregate : Aggregate}
    {eventType actorType : String} {actorID : Option Uuid} {payload : AuditPayload}
    {post : Except Err Unit → Session → World → Prop}
    (h : ∀ id row σ' w', c.Later σ w σ' w' → c.Inv w' →
      σ'.locks (.audit id) = some .exclusive → post (.ok ()) (σ'.write (.audit id) row) w') :
    c.wp (audit now workspace aggregate eventType actorType actorID payload) post σ w := by
  refine Contract.wp_sequence fun id => ?_
  refine Contract.wp_lock fun σ' w' hlater hlock hinv => ?_
  have hlocked : σ'.locks (.audit id) = some .exclusive := by
    rw [hlock]
    exact Session.lock_locks_self σ _
  exact Contract.wp_write hlocked (Contract.wp_pure (h id _ σ' w' hlater hinv hlocked))

/-- A notification. -/
theorem wp_notify {now : Timestamp} {context : String} {job : Uuid} {version : ℤ}
    {operation : Operation} {post : Except Err Unit → Session → World → Prop}
    (htaken : ∀ w', c.Later σ w σ w' → c.Inv w' → ((σ.after w').outbox job version).isSome →
      post (.error (.database context (.uniqueViolation outboxConstraint))) σ w')
    (hfree : ∀ id σ' w', c.Later σ w σ' w' → c.Inv w' →
      σ'.locks (.outbox job version) = some .exclusive → (σ'.after w').outbox job version = none →
      post (.ok ()) (σ'.write (.outbox job version)
        (some (OutboxRow.create now id (notificationPayload job version operation)))) w') :
    c.wp (notify now context job version operation) post σ w :=
  Contract.wp_sequence fun id => wp_insertInto htaken (hfree id)

end Statements

section Ends

/-- An error that is not about the outbox. -/
def Err.Ordinary (error : Err) : Prop :=
  ∀ context, error ≠ .database context (.uniqueViolation outboxConstraint)

/-- A call whose errors promise nothing. -/
def Call.Plain : Call → Prop
  | .claim .. | .createJob .. => False
  | _ => True

/-- What the end of a transaction means for the call it serves. -/
def Replies (p : Policy) (s : Service) (reply : α → Reply) (result : Except Err α)
    (σ : Session) (w : World) : Prop :=
  (contract p s).outcome (result.map reply) σ w

/-- A transaction is verified when its end means what its reply says. -/
theorem wp_replying {program : Tx α} {reply : α → Reply}
    (h : (contract p s).wp program (Replies p s reply) σ w) :
    (contract p s).wp (replying program reply) (contract p s).outcome σ w := by
  rw [replying, Contract.wp_bind]
  refine Contract.wp_mono _ ?_ h
  intro result σ' w' hresult
  cases result with
  | ok value => exact Contract.wp_pure hresult
  | error error => exact hresult

/-- A commit that gives its guarantee keeps the invariant. -/
theorem Replies.ok {reply : α → Reply} {value : α}
    (h : ∀ w', (contract p s).Rely σ w w' → Consistent p s w'.rows →
      (p.patient → PatientCommit σ w') → Guarantee p s σ (reply value) w') :
    Replies p s reply (.ok value) σ w := by
  intro w' hrely hinv hpermits
  have hguarantee := h w' hrely hinv hpermits
  exact ⟨hguarantee, hguarantee.consistent hinv⟩

/-- An ordinary error of a plain call. -/
theorem Replies.error {reply : α → Reply} {error : Err} (hplain : σ.call.Plain)
    (hordinary : error.Ordinary) : Replies p s reply (.error error) σ w := by
  intro w' _ _
  refine ⟨hordinary, ?_, ?_, ?_⟩
  · intro _ worker jobID version token hcall
    rw [hcall] at hplain
    exact hplain.elim
  · intro workspace key request randomInput randomJob operation digest record hcall
    rw [hcall] at hplain
    exact hplain.elim
  · intro _ workspace key request randomInput randomJob operation digest hcall
    rw [hcall] at hplain
    exact hplain.elim

end Ends

section Unchanged

/-- A commit that changes no run guarantees all that is asked about runs. -/
theorem RunGuarantee.unchanged (h : ∀ run, (σ.after w).run run = w.rows.run run) :
    RunGuarantee p s σ w where
  runs run := by
    rw [h run]
    exact .same _
  runsDeleted run old new hold hnew hstate hstate' := by
    rw [h run, hold] at hnew
    obtain rfl := Option.some.inj hnew
    exact absurd hstate' hstate
  runsValidated run old new hold hnew hstate hstate' := by
    rw [h run, hold] at hnew
    obtain rfl := Option.some.inj hnew
    simp [hstate] at hstate'
  runsUploaded run old new hold hnew hstate hstate' := by
    rw [h run, hold] at hnew
    obtain rfl := Option.some.inj hnew
    simp [hstate] at hstate'

/-- A commit that changes no input guarantees all that is asked about inputs. -/
theorem InputGuarantee.unchanged (hinputs : ∀ i, (σ.after w).input i = w.rows.input i)
    (hdigests : ∀ workspace digest, (σ.after w).lookup (.inputDigest workspace digest) =
      w.rows.lookup (.inputDigest workspace digest)) : InputGuarantee s σ w where
  inputs i input hinput := (hinputs i).trans hinput
  newInputs i input hold hnew := by
    rw [hinputs i, hold] at hnew
    cases hnew
  digests workspace digest i hi := by
    rw [hdigests] at hi
    exact .inl hi
  keepsDigests workspace digest i hi := (hdigests workspace digest).trans hi

/-- A commit that changes no notification guarantees all that is asked about the outbox. -/
theorem OutboxGuarantee.unchanged
    (h : ∀ job version, (σ.after w).outbox job version = w.rows.outbox job version) :
    OutboxGuarantee σ w where
  outboxKept job version sent hsent := .inl ⟨sent, (h job version).trans hsent, rfl, rfl⟩
  outboxNew job version sent hold hnew := by
    rw [h, hold] at hnew
    cases hnew

/-- A commit that changes no record guarantees all that is asked about records. -/
theorem RecordGuarantee.unchanged
    (h : ∀ workspace key, (σ.after w).idempotency workspace key = w.rows.idempotency workspace key) :
    RecordGuarantee σ w where
  recordsKept workspace key record hrecord := .inl ((h workspace key).trans hrecord)
  recordsNew workspace key record hold hnew := by
    rw [h, hold] at hnew
    cases hnew

/-- A commit that changes no row of a job guarantees all that is asked about jobs. -/
theorem JobGuarantee.unchanged (h : ∀ job, jobView (σ.after w) job = jobView w.rows job) :
    JobGuarantee p s σ w := by
  have hjob : ∀ job, (σ.after w).job job = w.rows.job job := fun job => congrArg JobView.job (h job)
  refine ⟨?_, fun job => .inl (h job), ?_, ?_, ?_, ?_, ?_,
    fun job row hsome _ => .inl ((hjob job).symm.trans hsome)⟩
  · intro job
    rw [h]
    exact .refl
  · intro job row hnone hsome
    simp [hjob, hnone] at hsome
  · intro job _ hnone hsome
    simp [hjob, hnone] at hsome
  · rintro _ job run _ hlive ⟨row, hrow, hstate⟩
    exact absurd ⟨row, (hjob job).symm.trans hrow, hstate⟩ hlive
  · intro job n hnone hsome
    exact absurd ((congrFun (congrArg JobView.attempts (h job)) n).trans hnone) hsome
  · intro job row hsome _
    exact .inl ((hjob job).symm.trans hsome)

/-- What a commit that changes one job guarantees about the jobs. -/
theorem JobGuarantee.of_job {job : Uuid} {row : JobRow}
    (hlocked : σ.locks (.job job) = some .exclusive) (hrow : w.rows.job job = some row)
    (hothers : ∀ other, other ≠ job → jobView (σ.after w) other = jobView w.rows other)
    (hchange : JobChange p.fenced σ.now (jobView w.rows job) (jobView (σ.after w) job))
    (hends : s.CollisionFree → ∀ run, w.rows.Validates job run → ¬ w.rows.Terminal job →
      (σ.after w).Terminal job → σ.call.Cancels job ∨
        ∀ found, (σ.after w).run run = some found → found.state ≠ .validating)
    (hbegins : ∀ n, w.rows.attempt job n = none → (σ.after w).attempt job n ≠ none →
      σ.call.Claims job)
    (hqueued : ∀ row, (σ.after w).job job = some row → row.state = .queued →
      w.rows.job job = some row)
    (hsucceeds : ∀ row, (σ.after w).job job = some row → row.state = .succeeded →
      σ.call.Completes job) : JobGuarantee p s σ w := by
  have hjob : ∀ other, other ≠ job → (σ.after w).job other = w.rows.job other :=
    fun other hne => congrArg JobView.job (hothers other hne)
  have hold : ∀ other, w.rows.job other = none → (σ.after w).job other = none := by
    intro other hnone
    by_cases hne : other = job
    · subst hne
      simp [hrow] at hnone
    · rw [hjob other hne, hnone]
  refine ⟨?_, ?_, ?_, ?_, ?_, ?_, ?_, ?_⟩
  · intro other
    by_cases hne : other = job
    · exact hne ▸ hchange
    · rw [hothers other hne]
      exact .refl
  · intro other
    by_cases hne : other = job
    · exact .inr (.inl (hne ▸ hlocked))
    · exact .inl (hothers other hne)
  · intro other row' hnone hsome
    simp [hold other hnone] at hsome
  · intro other _ hnone hsome
    exact absurd (hold other hnone) hsome
  · intro hfree other run hvalidates hlive hterminal
    by_cases hne : other = job
    · subst hne
      exact hends hfree run hvalidates hlive hterminal
    · obtain ⟨row', hrow', hstate⟩ := hterminal
      exact absurd ⟨row', (hjob other hne).symm.trans hrow', hstate⟩ hlive
  · intro other n hnone hsome
    by_cases hne : other = job
    · subst hne
      exact hbegins n hnone hsome
    · exact absurd ((congrFun (congrArg JobView.attempts (hothers other hne)) n).trans hnone) hsome
  · intro other row' hsome hstate
    by_cases hne : other = job
    · subst hne
      exact .inl (hqueued row' hsome hstate)
    · exact .inl ((hjob other hne).symm.trans hsome)
  · intro other row' hsome hstate
    by_cases hne : other = job
    · subst hne
      exact .inr (hsucceeds row' hsome hstate)
    · exact .inl ((hjob other hne).symm.trans hsome)

end Unchanged

/-- A commit that changes nothing. -/
theorem Working.guarantee {reply : Reply} (h : Working nothing σ₀ σ w)
    (heffect : Effect p s σ reply w) : Guarantee p s σ reply w where
  toJobGuarantee := .unchanged h.after_jobView
  toRunGuarantee := .unchanged fun _ => h.after_lookup _
  toInputGuarantee := .unchanged (fun _ => h.after_lookup _) fun _ _ => h.after_lookup _
  toOutboxGuarantee := .unchanged fun _ _ => h.after_lookup _
  toRecordGuarantee := .unchanged fun _ _ => h.after_lookup _
  time := h.now.trans_le h.time
  effect := heffect

section OneJob

/-- What a transaction on one job may change: the rows of the job, runs in the given
way, and rows about which nothing is promised. -/
def jobFootprint (job : Uuid) (Runs : Uuid → RunRow → RunRow → Prop) : Footprint Row where
  Allows
    | .run id, old, new =>
      new = old ∨ ∃ row row', old = some row ∧ new = some row' ∧ Runs id row row'
    | .audit _, _, _ => True
    | .artifactID _, _, _ => True
    | key, old, new => key.owner = some job ∨ new = old
  refl key row := by
    cases key with
    | run id => exact .inl rfl
    | audit id => trivial
    | artifactID id => trivial
    | _ => exact .inr rfl

variable {job : Uuid} {Runs : Uuid → RunRow → RunRow → Prop} {v₀ v : JobView}

namespace Handling

/-- Work on one job goes on while the others commit. -/
theorem later {F : Footprint Row} (h : Handling F σ₀ σ w job v₀ v)
    (hlater : (contract p s).Later σ w σ' w') : Handling F σ₀ σ' w' job v₀ v :=
  ⟨h.toWorking.later hlater, h.toHeld.later hlater⟩

/-- The job's row may be written. -/
theorem writeJob (h : Handling (jobFootprint job Runs) σ₀ σ w job v₀ v) (row : JobRow) :
    Handling (jobFootprint job Runs) σ₀ (σ.write (.job job) (some row)) w job v₀
      { v with job := some row } :=
  ⟨h.toWorking.write h.locked (.inl rfl), h.toHeld.writeJob row⟩

/-- An attempt of the job may be written once it is locked. -/
theorem writeAttempt (h : Handling (jobFootprint job Runs) σ₀ σ w job v₀ v) {n : ℤ}
    (hlocked : σ.locks (.attempt job n) = some .exclusive) (attempt : AttemptRow) :
    Handling (jobFootprint job Runs) σ₀ (σ.write (.attempt job n) (some attempt)) w job v₀
      { v with attempts := Function.update v.attempts n (some attempt) } :=
  ⟨h.toWorking.write hlocked (.inl rfl), h.toHeld.writeAttempt n attempt⟩

/-- An artifact of the job may be written once its key is locked. -/
theorem writeArtifact (h : Handling (jobFootprint job Runs) σ₀ σ w job v₀ v) {kind : ArtifactKind}
    (hlocked : σ.locks (.artifact job kind) = some .exclusive) (artifact : ArtifactRow) :
    Handling (jobFootprint job Runs) σ₀ (σ.write (.artifact job kind) (some artifact)) w job v₀
      { v with artifacts := Function.update v.artifacts kind (some artifact) } :=
  ⟨h.toWorking.write hlocked (.inl rfl), h.toHeld.writeArtifact kind artifact⟩

/-- The progress of the job may be written once it is locked. -/
theorem writeProgress (h : Handling (jobFootprint job Runs) σ₀ σ w job v₀ v)
    (hlocked : σ.locks (.progress job) = some .exclusive) (row : ProgressRow) :
    Handling (jobFootprint job Runs) σ₀ (σ.write (.progress job) (some row)) w job v₀
      { v with progress := some row } :=
  ⟨h.toWorking.write hlocked (.inl rfl), h.toHeld.writeProgress row⟩

/-- Audit records belong to no job. -/
theorem writeAudit (h : Handling (jobFootprint job Runs) σ₀ σ w job v₀ v) {id : ℕ}
    (hlocked : σ.locks (.audit id) = some .exclusive) (row : Option AuditRow) :
    Handling (jobFootprint job Runs) σ₀ (σ.write (.audit id) row) w job v₀ v :=
  ⟨h.toWorking.write hlocked trivial, h.toHeld.writeOther (.audit id) (by simp [Key.owner]) row⟩

/-- The index of artifact identifiers belongs to no job. -/
theorem writeArtifactID (h : Handling (jobFootprint job Runs) σ₀ σ w job v₀ v) {id : Uuid}
    (hlocked : σ.locks (.artifactID id) = some .exclusive) (row : Option Unit) :
    Handling (jobFootprint job Runs) σ₀ (σ.write (.artifactID id) row) w job v₀ v :=
  ⟨h.toWorking.write hlocked trivial,
    h.toHeld.writeOther (.artifactID id) (by simp [Key.owner]) row⟩

/-- A run may be written in the ways that the footprint names. -/
theorem writeRun (h : Handling (jobFootprint job Runs) σ₀ σ w job v₀ v) {run : Uuid}
    (hlocked : σ.locks (.run run) = some .exclusive) {old new : RunRow}
    (hold : w.rows.run run = some old) (hruns : Runs run old new) :
    Handling (jobFootprint job Runs) σ₀ (σ.write (.run run) (some new)) w job v₀ v :=
  ⟨h.toWorking.write hlocked (.inr ⟨old, new, hold, rfl, hruns⟩),
    h.toHeld.writeOther (.run run) (by simp [Key.owner]) _⟩

/-- `UPDATE` of an attempt that the transaction has locked. -/
theorem wp_updateAttempt (h : Handling (jobFootprint job Runs) σ₀ σ w job v₀ v) {n : ℤ}
    {attempt : AttemptRow} {qualifies : AttemptRow → Bool} {set : AttemptRow → AttemptRow}
    {post : Except Err (Option AttemptRow) → Session → World → Prop}
    (hlocked : σ.locks (.attempt job n) = some .exclusive) (hrow : v.attempts n = some attempt)
    (hqualifies : qualifies attempt = true)
    (hnext : ∀ σ' w', (contract p s).Later σ w σ' w' → Consistent p s w'.rows →
      Handling (jobFootprint job Runs) σ₀ (σ'.write (.attempt job n) (some (set attempt))) w' job v₀
        { v with attempts := Function.update v.attempts n (some (set attempt)) } →
      post (.ok (some (set attempt))) (σ'.write (.attempt job n) (some (set attempt))) w') :
    (contract p s).wp (updateAttempt job n qualifies set) post σ w := by
  have hview : (σ.view w.store).lookup (.attempt job n) = some attempt :=
    (congrFun (congrArg JobView.attempts h.view) n).trans hrow
  refine Contract.wp_updateKey_locked hlocked hview (fun _ => hqualifies) ?_
  intro σ' w' hlater hinv hlocked'
  exact hnext σ' w' hlater hinv ((h.later hlater).writeAttempt hlocked' _)

/-- `UPDATE` of the job that the transaction has locked. -/
theorem wp_updateJob (h : Handling (jobFootprint job Runs) σ₀ σ w job v₀ v)
    {row : JobRow} {qualifies : JobRow → Bool} {set : JobRow → JobRow}
    {post : Except Err (Option JobRow) → Session → World → Prop}
    (hrow : v.job = some row) (hqualifies : qualifies row = true)
    (hnext : ∀ σ' w', (contract p s).Later σ w σ' w' → Consistent p s w'.rows →
      Handling (jobFootprint job Runs) σ₀ (σ'.write (.job job) (some (set row))) w' job v₀
        { v with job := some (set row) } →
      post (.ok (some (set row))) (σ'.write (.job job) (some (set row))) w') :
    (contract p s).wp (updateJob job qualifies set) post σ w := by
  have hview : (σ.view w.store).lookup (.job job) = some row :=
    (congrArg JobView.job h.view).trans hrow
  refine Contract.wp_updateKey_locked h.locked hview (fun _ => hqualifies) ?_
  intro σ' w' hlater hinv _
  exact hnext σ' w' hlater hinv ((h.later hlater).writeJob _)

/-- The rows of every other job are as they were. -/
theorem others (h : Handling (jobFootprint job Runs) σ₀ σ w job v₀ v) {other : Uuid}
    (hne : other ≠ job) : jobView (σ.after w) other = jobView w.rows other := by
  have hnot : some other ≠ some job := fun heq => hne (Option.some.inj heq)
  ext1
  · exact (h.keeps.allows (.job other)).resolve_left hnot
  · exact funext fun n => (h.keeps.allows (.attempt other n)).resolve_left hnot
  · exact funext fun kind => (h.keeps.allows (.artifact other kind)).resolve_left hnot
  · exact (h.keeps.allows (.progress other)).resolve_left hnot

/-- Work within one footprint is work within a wider one. -/
theorem mono {F F' : Footprint Row} (h : Handling F σ₀ σ w job v₀ v)
    (hmono : ∀ key old new, F.Allows key old new → F'.Allows key old new) :
    Handling F' σ₀ σ w job v₀ v :=
  ⟨h.toWorking.mono hmono, h.toHeld⟩

/-- A transaction that has changed no run yet may go on to change some. -/
theorem allowRuns (h : Handling (jobFootprint job fun _ _ _ => False) σ₀ σ w job v₀ v) :
    Handling (jobFootprint job Runs) σ₀ σ w job v₀ v := by
  refine h.mono fun key old new hallows => ?_
  cases key with
  | run id => exact hallows.imp_right fun ⟨_, _, _, _, hnever⟩ => hnever.elim
  | _ => exact hallows

/-- Input rows are as they were. -/
theorem after_input (h : Handling (jobFootprint job Runs) σ₀ σ w job v₀ v) (i : Uuid) :
    (σ.after w).input i = w.rows.input i :=
  (h.keeps.allows (.input i)).resolve_left (fun howner => nomatch howner)

/-- Runs are as they were. -/
theorem after_run (h : Handling (jobFootprint job fun _ _ _ => False) σ₀ σ w job v₀ v)
    (run : Uuid) : (σ.after w).run run = w.rows.run run :=
  (h.keeps.allows (.run run)).resolve_right fun ⟨_, _, _, _, hnever⟩ => hnever

/-- The input of the job on which the transaction works. -/
theorem inputRun_eq (h : Handling (jobFootprint job Runs) σ₀ σ w job v₀ v) {row row' : JobRow}
    {input : InputRow} (hrow : v.job = some row') (hsame : row'.input = row.input)
    (hinput : w.rows.jobInput row = some input) : inputRun job (σ.after w) = [input.runA] := by
  have hjob : (σ.after w).job job = some row' := (congrArg JobView.job h.view).trans hrow
  have hfound : (σ.after w).jobInput row' = some input := by
    rw [Store.jobInput, hsame, h.after_input]
    exact hinput
  simp [inputRun, hjob, hfound]

/-- The run of a validation job on which the transaction works is validating. -/
theorem validating (h : Handling (jobFootprint job fun _ _ _ => False) σ₀ σ w job v₀ v)
    (hfree : s.CollisionFree) (hinv : Consistent p s w.rows) {row : JobRow} {input : InputRow}
    (hrow : v₀.job = some row) (hinput : w.rows.jobInput row = some input) (hoperation : input.operation = .validate) :
    ∃ found, (σ.after w).run input.runA = some found ∧ found.state = .validating := by
  have hjob : w.rows.job job = some row := (congrArg JobView.job h.base).trans hrow
  have hlive : row.state.terminal = false := by
    obtain ⟨row', hrow', hlive⟩ := h.live
    obtain rfl := Option.some.inj (hjob.symm.trans hrow')
    exact hlive
  obtain ⟨found, hfound, _, hstate, _⟩ :=
    hinv.runs hfree job row input hjob hinput input.runA (by simp [InputRow.runs])
  refine ⟨found, (h.after_run _).trans hfound, ?_⟩
  rw [hstate hlive, hoperation]
  rfl

/-- A commit that changes one job, and runs only where the job's end decides them. -/
theorem guarantee {reply : Reply} (h : Handling (jobFootprint job Runs) σ₀ σ w job v₀ v)
    (hchange : JobChange p.fenced σ₀.now v₀ v)
    (hruns : ∀ run row row', Runs run row row' → RunStep σ₀.now (some row) (some row') ∧
      row.state = .validating ∧ (row'.state = .ready ∨ row'.state = .invalid))
    (hvalidates : ∀ run row row', Runs run row row' → w.rows.Validates job run ∧
      ∃ row, v.job = some row ∧ row.state.terminal = true)
    (hends : s.CollisionFree → ∀ run row, w.rows.Validates job run → v.job = some row →
      row.state.terminal = true → σ₀.call.Cancels job ∨
        ∀ found, (σ.after w).run run = some found → found.state ≠ .validating)
    (hbegins : ∀ n, v₀.attempts n = none → v.attempts n ≠ none → σ₀.call.Claims job)
    (hqueued : ∀ row, v.job = some row → row.state = .queued → v₀.job = some row)
    (hsucceeds : ∀ row, v.job = some row → row.state = .succeeded → σ₀.call.Completes job)
    (heffect : Effect p s σ reply w) : Guarantee p s σ reply w := by
  rw [← h.now] at hchange hruns
  rw [← h.call] at hends hbegins hsucceeds
  obtain ⟨row, hrow, _⟩ := h.live
  have hbase := h.base
  have hview := h.view
  have hkept : ∀ key : Key, key.owner = none → (∀ id, key ≠ .run id) → (∀ id, key ≠ .audit id) →
      (∀ id, key ≠ .artifactID id) → (σ.after w).lookup key = w.rows.lookup key := by
    intro key howner hrun haudit hartifact
    have hallows := h.keeps.allows key
    cases key with
    | run id => exact absurd rfl (hrun id)
    | audit id => exact absurd rfl (haudit id)
    | artifactID id => exact absurd rfl (hartifact id)
    | _ => exact hallows.resolve_left (by simp [howner])
  have hchanged : ∀ run old new, w.rows.run run = some old → (σ.after w).run run = some new →
      new = old ∨ Runs run old new := by
    intro run old new hold hnew
    rcases h.keeps.allows (.run run) with hsame | ⟨row, row', hrow, hrow', hallowed⟩
    · exact .inl (Option.some.inj (hnew.symm.trans (hsame.trans hold)))
    · obtain rfl := Option.some.inj (hrow.symm.trans hold)
      obtain rfl := Option.some.inj (hrow'.symm.trans hnew)
      exact .inr hallowed
  refine ⟨.of_job h.locked hrow (fun _ => h.others) ?_ ?_ ?_ ?_ ?_, ⟨?_, ?_, ?_, ?_⟩,
    .unchanged ?_ ?_, .unchanged ?_, .unchanged ?_, h.now.trans_le h.time, heffect⟩
  · rw [hbase, hview]
    exact hchange
  · rintro hfree run hvalidates _ ⟨row, hrow, hterminal⟩
    exact hends hfree run row hvalidates ((congrArg JobView.job hview).symm.trans hrow) hterminal
  · intro n hnone hsome
    exact hbegins n ((congrFun (congrArg JobView.attempts hbase) n).symm.trans hnone)
      (fun hgone => hsome ((congrFun (congrArg JobView.attempts hview) n).trans hgone))
  · intro row hrow hstate
    exact (congrArg JobView.job hbase).trans
      (hqueued row ((congrArg JobView.job hview).symm.trans hrow) hstate)
  · exact fun row hrow => hsucceeds row ((congrArg JobView.job hview).symm.trans hrow)
  · intro run
    rcases h.keeps.allows (.run run) with hsame | ⟨row, row', hrow, hrow', hallowed⟩
    · have hrun : (σ.after w).run run = w.rows.run run := hsame
      rw [hrun]
      exact .same _
    · have hrun : (σ.after w).run run = some row' := hrow'
      have hrun₀ : w.rows.run run = some row := hrow
      rw [hrun, hrun₀]
      exact (hruns run row row' hallowed).1
  · intro run old new hold hnew hstate hstate'
    rcases hchanged run old new hold hnew with rfl | hallowed
    · exact absurd hstate' hstate
    · obtain ⟨_, _, hend⟩ := hruns run old new hallowed
      simp [hstate'] at hend
  · intro run old new hold hnew hstate hstate'
    rcases hchanged run old new hold hnew with rfl | hallowed
    · simp [hstate] at hstate'
    · obtain ⟨hvalid, row, hrow, hterminal⟩ := hvalidates run old new hallowed
      exact ⟨job, hvalid, h.live.not_terminal,
        row, (congrArg JobView.job hview).trans hrow, hterminal⟩
  · intro run old new hold hnew hstate hstate'
    rcases hchanged run old new hold hnew with rfl | hallowed
    · simp [hstate] at hstate'
    · simp [(hruns run old new hallowed).2.1] at hstate
  · exact fun i => hkept (.input i) rfl (by simp) (by simp) (by simp)
  · exact fun _ _ => hkept _ rfl (by simp) (by simp) (by simp)
  · exact fun _ _ => hkept (.outbox _ _) rfl (by simp) (by simp) (by simp)
  · exact fun _ _ => hkept (.idempotency _ _) rfl (by simp) (by simp) (by simp)

end Handling

end OneJob

end Tracewake.Hosted
