import Tracewake.Hosted.Digests
import Tracewake.Hosted.UploadsVerified

/-!
# Job requests

A job request returns the job of an earlier request under the same key, or it locks
its runs and inserts a job over an input that may exist already.
-/

namespace Tracewake.Hosted

open ReadCommitted

variable {p : Policy} {s : Service} {σ₀ σ σ' : Session} {w₀ w w' : World}

/-- A text names a run that the transaction has locked and found ready. -/
def LockedReady (σ : Session) (w : World) (workspace : Uuid) (runID : String) : Prop :=
  ∃ run found, Uuid.parse runID = some run ∧ σ.locks (.run run) ≠ none ∧
    w.rows.run run = some found ∧ found.workspace = workspace ∧ found.state = .ready

/-- A run that is locked and ready stays ready while the transaction goes on. -/
theorem LockedReady.onward {workspace : Uuid} {runID : String}
    (h : LockedReady σ w workspace runID) (honward : (contract p s).Onward σ w σ' w') :
    LockedReady σ' w' workspace runID := by
  obtain ⟨run, found, hparse, hlocked, hrow, hfound⟩ := h
  exact ⟨run, found, hparse, honward.locked _ hlocked, (honward.rely.lookup_eq hlocked).trans hrow,
    hfound⟩

/-- A run that was ready once and is not ready later never becomes ready again. -/
theorem not_readyRun {σ₁ σ₂ : Session} {w₁ w₂ : World} {workspace : Uuid} {runID : String}
    (hbefore : w.rows.ReadyRun workspace runID) (h₁ : (contract p s).Rely σ₁ w w₁)
    (hnot : ¬ w₁.rows.ReadyRun workspace runID) (h₂ : (contract p s).Rely σ₂ w₁ w₂) :
    ¬ w₂.rows.ReadyRun workspace runID := by
  obtain ⟨run, found, hparse, hfound, hworkspace, hstate⟩ := hbefore
  obtain ⟨found₁, hfound₁, hworkspace₁, hstate₁⟩ := rely_run_settled h₁ hfound (.inl hstate)
  have hdeleted : found₁.state = .deleted := by
    rcases hstate₁ with hsame | hdeleted
    · exact absurd ⟨run, found₁, hparse, hfound₁, hworkspace₁.trans hworkspace,
        hsame.trans hstate⟩ hnot
    · exact hdeleted
  rintro ⟨run', found₂, hparse', hfound₂, _, hready⟩
  obtain rfl := Option.some.inj (hparse.symm.trans hparse')
  obtain ⟨found₂', hfound₂', _, hstate₂⟩ := rely_run_settled h₂ hfound₁ (.inr hdeleted)
  obtain rfl := Option.some.inj (hfound₂.symm.trans hfound₂')
  simp [hdeleted, hready] at hstate₂

/-- Locking an input run yields a run that is ready and stays locked, or an error that says
that some run is not ready. -/
theorem wp_lockReadyRun {workspace : Uuid} {runID : String}
    {post : Except Err Unit → Session → World → Prop} (h : Working nothing σ₀ σ w)
    (hok : ∀ σ' w', (contract p s).Later σ w σ' w' → LockedReady σ' w' workspace runID →
      post (.ok ()) σ' w')
    (herror : ∀ σ' w', (contract p s).Later σ w σ' w' → ¬ w'.rows.ReadyRun workspace runID →
      post (.error .conflict) σ' w') :
    (contract p s).wp (lockReadyRun workspace runID) post σ w := by
  unfold lockReadyRun
  cases hparse : Uuid.parse runID with
  | none =>
    refine Contract.wp_fail (herror σ w .refl ?_)
    rintro ⟨run, _, hparse', _⟩
    simp [hparse] at hparse'
  | some run =>
    have hseen : ∀ (σ' : Session) (w' : World), (contract p s).Later σ w σ' w' →
        w'.rows.ReadyRun workspace runID → ∃ found : RunRow, (σ'.after w').run run = some found ∧
          found.workspace = workspace ∧ found.state = .ready := by
      rintro σ' w' hlater ⟨run', found, hparse', hfound, hrow⟩
      obtain rfl := Option.some.inj (hparse.symm.trans hparse')
      exact ⟨found, ((h.later hlater).after_lookup (.run run)).trans hfound, hrow⟩
    refine Contract.wp_then (Contract.wp_selectLocked ?_ ?_)
    · intro σ' w' hlater _ _ hnone
      refine wp_require (fun hready => by simp at hready) fun _ => herror σ' w' hlater ?_
      intro hready
      obtain ⟨found, hfound, hworkspace, _⟩ := hseen σ' w' hlater hready
      rw [show (σ'.view w'.store).lookup (Key.run run) = some found from hfound] at hnone
      simp [hworkspace] at hnone
    · intro σ₁ w₁ σ' w' hlater₁ _ hlater' _ _ hlock
      have hlater := hlater₁.trans hlater'
      refine wp_require (fun hready => ?_) fun hnot => ?_
      · cases hfound : (σ'.view w'.store).lookup (Key.run run) with
        | none => simp [hfound] at hready
        | some found =>
          simp only [hfound, Option.any_filter, Option.any_some, Bool.and_eq_true,
            decide_eq_true_eq] at hready
          refine hok σ' w' hlater ⟨run, found, hparse, ?_, ?_, hready⟩
          · rw [hlock]
            exact Session.lock_locks_self_ne_none σ₁ .share _
          · exact ((h.later hlater).after_lookup (.run run)).symm.trans hfound
      · refine herror σ' w' hlater fun hready => ?_
        obtain ⟨found, hfound, hworkspace, hstate⟩ := hseen σ' w' hlater hready
        rw [show (σ'.view w'.store).lookup (Key.run run) = some found from hfound] at hnot
        simp [hworkspace, hstate] at hnot

/-- The key of an input row or of its entry in the digest index. -/
def Key.ofInput : Key → Prop
  | .input _ => True
  | .inputDigest _ _ => True
  | _ => False

/-- The input of a request: inserted by the transaction under a fresh identifier, or
found. -/
inductive Normalized (σ : Session) (w : World) (workspace : Uuid) (digest : String)
    (fresh i : Uuid) (input : InputRow) : Prop
  | inserted : i = fresh →
      (∀ run ∈ input.runs, ∃ found, w.rows.run run = some found ∧ found.workspace = workspace) →
      Wrote σ w (.input i) none (some input) → Wrote σ w (.inputDigest workspace digest) none (some i) →
      Normalized σ w workspace digest fresh i input
  | found : w.rows.input i = some input → (∀ key : Key, key.ofInput → σ.writes.lookup key = none) →
      Normalized σ w workspace digest fresh i input

namespace Normalized

variable {workspace fresh i : Uuid} {digest : String} {input : InputRow}

/-- An input that was found or inserted stays in place while the others commit. -/
theorem later (h : Normalized σ w workspace digest fresh i input)
    (hlater : (contract p s).Later σ w σ' w') : Normalized σ' w' workspace digest fresh i input := by
  cases h with
  | inserted hfresh hplaced hinput hindex =>
    refine .inserted hfresh (fun run hrun => ?_) (hinput.later hlater) (hindex.later hlater)
    obtain ⟨found, hfound, hworkspace⟩ := hplaced run hrun
    obtain ⟨found', hfound', hworkspace'⟩ := rely_run hlater.rely hfound
    exact ⟨found', hfound', hworkspace'.trans hworkspace⟩
  | found hfound hnone =>
    exact .found (rely_input hlater.rely hfound) fun key hkey => hlater.writes ▸ hnone key hkey

/-- Rows that belong to no input leave it in place. -/
theorem write (h : Normalized σ w workspace digest fresh i input) {k : Key} (hkey : ¬ k.ofInput)
    (row : Option (Row k)) : Normalized (σ.write k row) w workspace digest fresh i input := by
  have hne : ∀ other : Key, other.ofInput → other ≠ k := fun other hother heq => hkey (heq ▸ hother)
  cases h with
  | inserted hfresh hplaced hinput hindex =>
    exact .inserted hfresh hplaced (hinput.write (hne _ trivial) row) (hindex.write (hne _ trivial) row)
  | found hfound hnone =>
    exact .found hfound fun other hother =>
      (AList.lookup_insert_ne (hne other hother)).trans (hnone other hother)

/-- When the session commits, the input is stored. -/
theorem after (h : Normalized σ w workspace digest fresh i input) : (σ.after w).input i = some input := by
  cases h with
  | inserted _ _ hinput _ => exact hinput.after
  | found hfound hnone => exact (after_lookup (hnone (.input i) trivial)).trans hfound

end Normalized

/-- The input of a request is inserted or found, and either way it is described by the
digest. -/
theorem wp_normalizedInput {i : Uuid} {row : InputRow}
    {post : Except Err Uuid → Session → World → Prop} (h : Working nothing σ₀ σ w)
    (hempty : σ.writes = ∅) (hplaced : ∀ run ∈ row.runs, ∃ found, w.rows.run run = some found ∧
      found.workspace = row.workspace) (hlength : row.runs.length = expectedInputs row.operation)
    (hdescribes : Describes s row.workspace row.normalizedDigest row)
    (hok : ∀ j input σ' w', (contract p s).Onward σ w σ' w' →
      Working (only [.input i, .inputDigest row.workspace row.normalizedDigest]) σ₀ σ' w' →
      Normalized σ' w' row.workspace row.normalizedDigest i j input →
      input.runs.length = expectedInputs input.operation →
      Describes s row.workspace row.normalizedDigest input → post (.ok j) σ' w')
    (hshape : row.runB = some row.runA →
      post (.error (.database "insert job input" (.checkViolation "job_inputs_shape_check"))) σ w)
    (htaken : ∀ σ' w', (contract p s).Onward σ w σ' w' → w'.rows.input i ≠ none →
      post (.error (.database "insert job input" (.uniqueViolation "job_inputs_pkey"))) σ' w') :
    (contract p s).wp (normalizedInput i row) post σ w := by
  unfold normalizedInput
  refine Contract.wp_then (wp_require (fun _ => ?_) fun hnot => hshape (by simpa using hnot))
  dsimp only
  refine Contract.wp_then (Contract.wp_insertRow ?_ ?_)
  · intro w' hrely hinv hindex
    have h' := h.rely hrely
    rw [h'.after_lookup] at hindex
    obtain ⟨j, hj⟩ := Option.isSome_iff_exists.mp hindex
    refine Contract.wp_then (Contract.wp_select fun σ₂ w₂ hlater₂ _ hinv₂ => ?_)
    have h₂ := h'.later hlater₂
    have hj₂ : w₂.rows.lookup (.inputDigest row.workspace row.normalizedDigest) = some j :=
      rely_digest hlater₂.rely hj
    rw [h₂.after_lookup, hj₂]
    obtain ⟨input, hinput, hdescribed⟩ := hinv₂.digests _ _ _ hj₂
    refine Contract.wp_pure (hok j input σ₂ w₂ ?_ h₂.of_nothing (.found hinput ?_)
      (hinv₂.shapes j input hinput) hdescribed)
    · exact (Contract.Later.of_rely hrely).toOnward.trans hlater₂.toOnward
    · intro key _
      rw [hlater₂.writes, hempty]
      exact AList.lookup_empty key
  · intro σ₁ w₁ hlater₁ _ hlocked₁ _ hnone₁
    have h₁ := h.later hlater₁
    have hfree₁ := (h₁.after_lookup _).symm.trans hnone₁
    have hwrote₁ := h₁.only_nil.writeOnly hlocked₁ (some i)
    refine Contract.wp_then (wp_insertInto ?_ ?_)
    · intro w₂ hlater₂ _ htaken₂
      refine htaken _ w₂ ((hlater₁.toOnward.write _ _).trans hlater₂.toOnward) ?_
      rw [(hwrote₁.later hlater₂).after_only (by simp)] at htaken₂
      exact Option.isSome_iff_ne_none.mp htaken₂
    · intro σ₂ w₂ hlater₂ _ hlocked₂ hnone₂
      have h₂ := hwrote₁.later hlater₂
      have hfree₂ := (h₂.after_only (by simp)).symm.trans hnone₂
      have h₃ := h₂.writeOnly hlocked₂ (some row)
      refine Contract.wp_pure (hok i row _ w₂
        (((hlater₁.toOnward.write _ _).trans hlater₂.toOnward).write _ _) h₃ (.inserted rfl ?_ ?_ ?_)
        hlength hdescribes)
      · intro run hrun
        obtain ⟨found, hfound, hworkspace⟩ := hplaced run hrun
        obtain ⟨found', hfound', hworkspace'⟩ :=
          rely_run ((hlater₁.toOnward.write (.inputDigest row.workspace row.normalizedDigest)
            (some i)).trans hlater₂.toOnward).rely hfound
        exact ⟨found', hfound', hworkspace'.trans hworkspace⟩
      · exact .of_write hlocked₂ hfree₂ _
      · exact ((Wrote.of_write hlocked₁ hfree₁ _).later hlater₂).write (by simp) _

/-- A commit that inserts a job together with the record of its key. -/
theorem Working.guarantee_created {workspace inserted inputID jobID : Uuid} {key digest : String}
    {request : JobRequest} {operation : Operation} {input : InputRow} {sent : OutboxRow} {id : ℕ}
    {record : IdempotencyRow} {reply : Reply} {now : Timestamp}
    (h : Working (only [.idempotency workspace key, .audit id, .outbox jobID 1, .job jobID,
      .input inserted, .inputDigest workspace digest]) σ₀ σ w) (hnow : σ₀.now = now)
    (hdigest : normalizedDigest s request = .ok (operation, digest))
    (hvalid : request.runIDs.all validID = true)
    (hready : ∀ runID ∈ request.runIDs, LockedReady σ w workspace runID)
    (hinput : Normalized σ w workspace digest inserted inputID input)
    (hlength : input.runs.length = expectedInputs input.operation)
    (hdescribes : Describes s workspace digest input)
    (hjob : Wrote σ w (.job jobID) none (some (JobRow.create workspace inputID now)))
    (hsent : Wrote σ w (.outbox jobID 1) none (some sent))
    (hpayload : sent.payload = notificationPayload jobID 1 operation)
    (hrecord : Wrote σ w (.idempotency workspace key) none (some record))
    (hresponse : record.responseID = jobID)
    (hdraws : inserted ∈ σ₀.call.draws ∧ jobID ∈ σ₀.call.draws)
    (hcall : ∃ randomInput randomJob,
      σ₀.call = .createJob workspace key request randomInput randomJob)
    (heffect : Effect p s σ reply w) : Guarantee p s σ reply w := by
  rw [← h.call] at hdraws hcall
  have hrun : ∀ run, (σ.after w).run run = w.rows.run run :=
    fun run => h.after_only (k := .run run) (by simp)
  have hlocked : s.CollisionFree → ∀ run ∈ input.runs, ∃ found, σ.locks (.run run) ≠ none ∧
      w.rows.run run = some found ∧ found.workspace = workspace ∧ found.state = .ready := by
    intro hfree run hmem
    obtain ⟨_, hruns⟩ := hdescribes.input_eq hfree hdigest hvalid
    have hmem' : some run ∈ request.runIDs.map Uuid.parse := by
      rw [hruns]
      exact List.mem_map_of_mem hmem
    obtain ⟨runID, hrunID, hparse⟩ := List.mem_map.mp hmem'
    obtain ⟨run', found, hparse', hready⟩ := hready runID hrunID
    obtain rfl := Option.some.inj (hparse.symm.trans hparse')
    exact ⟨found, hready⟩
  have hanalysis : s.CollisionFree → input.operation ≠ .validate := by
    intro hfree
    obtain ⟨hname, _, _⟩ := normalizedDigest_eq hdigest
    rw [(hdescribes.input_eq hfree hdigest hvalid).1]
    exact (analysisOperations_name hname).2.1
  have hfound : (σ.after w).jobInput (JobRow.create workspace inputID now) = some input := hinput.after
  have hcreated : Created s w.rows (σ.after w) σ jobID (JobRow.create workspace inputID now)
      input := by
    refine ⟨hjob.base, ?_, hfound, ?_, ?_, fun hfree hvalidate => absurd hvalidate (hanalysis hfree),
      ⟨sent, hsent.after⟩⟩
    · rw [h.now, hnow, hdescribes.1]
      rfl
    · exact fun hfree run hmem => (hlocked hfree run hmem).choose_spec.1
    · intro hfree run hmem
      obtain ⟨found, _, hfound, hworkspace, hstate⟩ := hlocked hfree run hmem
      refine ⟨found, (hrun run).trans hfound, hworkspace, hstate.trans ?_⟩
      have := hanalysis hfree
      cases hoperation : input.operation <;> simp_all [Operation.inputState]
  refine ⟨.of_create hcreated hdraws.2 hjob ?_, .unchanged hrun, ?_,
    .of_create hjob (by simp) hsent hpayload ?_, ⟨?_, ?_⟩, h.now.trans_le h.time, heffect⟩
  · intro key howner hne
    refine h.after_only fun hmem => ?_
    simp only [List.mem_cons, List.not_mem_nil, or_false] at hmem
    rcases hmem with rfl | rfl | rfl | rfl | rfl | rfl
    all_goals first | exact howner rfl | exact hne rfl
  · cases hinput with
    | inserted hfresh hplaced hinput hindex =>
      subst hfresh
      obtain rfl := hdescribes.1
      refine .of_create hinput hindex hlength hdraws.1 (fun run hmem => ?_) hdescribes ?_ ?_
      · rw [hrun run]
        exact hplaced run hmem
      · exact fun j hne => h.after_only (k := .input j) (by simp [hne])
      · exact fun other digest' hne =>
          h.after_only (k := .inputDigest other digest') (by simpa using hne)
    | found hfound hnone =>
      refine .unchanged (fun i => ?_) fun workspace digest => ?_
      · exact Hosted.after_lookup (hnone (.input i) trivial)
      · exact Hosted.after_lookup (hnone (.inputDigest workspace digest) trivial)
  · exact fun other version hne => h.after_only (k := .outbox other version) (by simpa using hne)
  · intro other key' record' hrecord'
    by_cases hsame : other = workspace ∧ key' = key
    · obtain ⟨rfl, rfl⟩ := hsame
      have := hrecord'.symm.trans hrecord.base
      cases this
    · exact .inl ((h.after_only (k := .idempotency other key') (by simpa using hsame)).trans hrecord')
  · intro other key' record' hnone hrecord'
    by_cases hsame : other = workspace ∧ key' = key
    · obtain ⟨rfl, rfl⟩ := hsame
      obtain rfl := Option.some.inj (hrecord'.symm.trans hrecord.after)
      obtain ⟨randomInput, randomJob, hcall⟩ := hcall
      exact ⟨⟨request, randomInput, randomJob, hcall⟩, _, hresponse ▸ hjob.after, rfl⟩
    · rw [show (σ.after w).idempotency other key' = w.rows.idempotency other key' from
        h.after_only (k := .idempotency other key') (by simpa using hsame), hnone] at hrecord'
      cases hrecord'

/-- The inserts of `createFreshJob`, which follow once the input of the job is there. -/
def insertJob (workspace : Uuid) (key : String) (operation : Operation) (digest : String)
    (input job : Uuid) (now : Timestamp) : Tx Job := do
  insertInto "insert job" "jobs_pkey" (.job job) (JobRow.create workspace input now)
  notify now "insert job outbox" job 1 operation
  audit now workspace (.job job) "job.created" "tenant" none { state := some "queued" }
  insertInto "insert idempotency record" "idempotency_records_pkey" (.idempotency workspace key)
    { requestDigest := digest
      responseID := job
      createdAt := now
      expiresAt := now + seconds (24 * 3600) }
  .pure { id := job, state := .queued, attempt := none }

/-- A fresh request locks and reads its runs, finds its input, and inserts. -/
theorem createFreshJob_eq (workspace : Uuid) (key : String) (request : JobRequest)
    (operation : Operation) (digest : String) (randomInput randomJob : BitVec 128)
    (now : Timestamp) :
    createFreshJob workspace key request operation digest randomInput randomJob now = (do
      Program.forEach (lockReadyRun workspace) request.runIDs
      let runA ← uuidParam "insert job input" (request.runIDs.headD "")
      let runB ← nullableUuidParam "insert job input" request.runIDs.tail.head?
      let input ← normalizedInput (newID randomInput)
        { workspace, operation, runA, runB
          analysisProfile := request.profile
          normalizedDigest := digest
          createdAt := now }
      insertJob workspace key operation digest input (newID randomJob) now) := rfl

section Requests

variable {workspace : Uuid} {key : String} {request : JobRequest}
  {randomInput randomJob : BitVec 128} {operation : Operation} {digest : String}

/-- What an error of a job request has to mean. -/
theorem Replies.create_error {reply : Job × Bool → Reply} {error : Err}
    (honward : (contract p s).Onward
      (.start (.createJob workspace key request randomInput randomJob) w₀.clock w₀.store) w₀ σ w)
    (hordinary : error.Ordinary)
    (hreuse : ∀ w' operation digest record, (contract p s).Rely σ w w' →
      ValidRequest s key request operation digest →
      w₀.rows.idempotency workspace key = some record → w'.clock < record.expiresAt →
      error = .idempotencyConflict ∧ record.requestDigest ≠ digest)
    (hcreate : ∀ w' operation digest, (contract p s).Rely σ w w' → p.keyed →
      ValidRequest s key request operation digest → w₀.rows.idempotency workspace key = none →
      (∀ runID ∈ request.runIDs, w₀.rows.ReadyRun workspace runID) →
      ¬ ∀ runID ∈ request.runIDs, w'.rows.ReadyRun workspace runID) :
    Replies p s reply (.error error) σ w := by
  intro w' hrely _
  have hcall := honward.call
  have hbefore : σ.before = w₀.rows := honward.origin
  refine ⟨hordinary, ?_, ?_, ?_⟩
  · intro _ worker jobID version token hclaim
    rw [hcall] at hclaim
    cases hclaim
  · intro workspace' key' request' _ _ operation digest record hrequest hvalid hremembers
    rw [hcall] at hrequest
    cases hrequest
    exact hreuse w' operation digest record hrely hvalid (hbefore ▸ hremembers.1) hremembers.2
  · intro hkeyed workspace' key' request' _ _ operation digest hrequest hvalid hnone hready
    rw [hcall] at hrequest
    cases hrequest
    exact hcreate w' operation digest hrely hkeyed hvalid (hbefore ▸ hnone) (hbefore ▸ hready)

/-- A request that fails a check before the database is asked is not valid. -/
theorem Replies.invalid_error {reply : Job × Bool → Reply} {error : Err}
    (honward : (contract p s).Onward
      (.start (.createJob workspace key request randomInput randomJob) w₀.clock w₀.store) w₀ σ w)
    (hordinary : error.Ordinary)
    (hinvalid : ∀ operation digest, ¬ ValidRequest s key request operation digest) :
    Replies p s reply (.error error) σ w :=
  .create_error honward hordinary
    (fun _ operation digest _ _ hvalid => absurd hvalid (hinvalid operation digest))
    fun _ operation digest _ _ hvalid => absurd hvalid (hinvalid operation digest)

/-- Where a request stands that has found no unexpired record of its key: it keeps
changing rows, and whatever record it began with has expired. -/
structure Fresh (p : Policy) (s : Service) (w₀ : World) (workspace : Uuid) (key : String)
    (request : JobRequest) (randomInput randomJob : BitVec 128) (σ : Session) (w : World) :
    Prop where
  onward : (contract p s).Onward
    (.start (.createJob workspace key request randomInput randomJob) w₀.clock w₀.store) w₀ σ w
  starts : p.keyed → KeyedStart (.createJob workspace key request randomInput randomJob) w₀
  forgotten : ∀ record, w₀.rows.idempotency workspace key = some record →
    record.expiresAt ≤ w.clock

/-- The state of a request under a new key holds on while the transaction goes on. -/
theorem Fresh.onward' (h : Fresh p s w₀ workspace key request randomInput randomJob σ w)
    (honward : (contract p s).Onward σ w σ' w') :
    Fresh p s w₀ workspace key request randomInput randomJob σ' w' :=
  ⟨h.onward.trans honward, h.starts,
    fun record hrecord => (h.forgotten record hrecord).trans honward.rely.clock_le⟩

/-- An error after that point only has to be explained under a new key. -/
theorem Fresh.error {reply : Job × Bool → Reply} {error : Err}
    (h : Fresh p s w₀ workspace key request randomInput randomJob σ w) (hordinary : error.Ordinary)
    (hcreate : p.keyed → (request.runIDs.map Uuid.parse).Nodup →
      w₀.rows.idempotency workspace key = none →
      (∀ runID ∈ request.runIDs, w₀.rows.ReadyRun workspace runID) →
      ∃ runID ∈ request.runIDs, ¬ w.rows.ReadyRun workspace runID) :
    Replies p s reply (.error error) σ w := by
  refine .create_error h.onward hordinary ?_ ?_
  · intro w' _ _ record hrely _ hrecord hclock
    exact absurd hclock (not_lt.mpr ((h.forgotten record hrecord).trans hrely.clock_le))
  · intro w' _ _ hrely hkeyed hvalid hnone hready hall
    obtain ⟨runID, hmem, hnot⟩ := hcreate hkeyed hvalid.distinct hnone hready
    exact not_readyRun (hready runID hmem) h.onward.rely hnot hrely (hall runID hmem)

/-- Under exclusive keys, the identifiers and the key of a request are still free. -/
theorem Fresh.free (h : Fresh p s w₀ workspace key request randomInput randomJob σ w)
    (hkeyed : p.keyed) : w.rows.input (newID randomInput) = none ∧
      w.rows.job (newID randomJob) = none ∧
      (w₀.rows.idempotency workspace key = none → w.rows.idempotency workspace key = none) := by
  obtain ⟨_, hinput, hjob⟩ := h.starts hkeyed
  obtain ⟨hinput', hjob'⟩ := rely_ids_free h.onward.rely hkeyed rfl hinput hjob
  exact ⟨hinput', hjob', rely_key_free h.onward.rely hkeyed rfl⟩

/-- A fresh request locks its runs. -/
theorem Fresh.wp_lockReadyRuns {post : Except Err Unit → Session → World → Prop}
    (h : Fresh p s w₀ workspace key request randomInput randomJob σ w)
    (hworking : Working nothing σ₀ σ w) (hempty : σ.writes = ∅)
    (hok : ∀ σ' w', Fresh p s w₀ workspace key request randomInput randomJob σ' w' →
      Working nothing σ₀ σ' w' → σ'.writes = ∅ →
      (∀ runID ∈ request.runIDs, LockedReady σ' w' workspace runID) → post (.ok ()) σ' w')
    (herror : ∀ σ' w' runID, Fresh p s w₀ workspace key request randomInput randomJob σ' w' →
      runID ∈ request.runIDs → ¬ w'.rows.ReadyRun workspace runID →
      post (.error .conflict) σ' w') :
    (contract p s).wp (Program.forEach (lockReadyRun workspace) request.runIDs) post σ w := by
  refine Contract.wp_forEach (fun done σ' w' =>
    Fresh p s w₀ workspace key request randomInput randomJob σ' w' ∧ Working nothing σ₀ σ' w' ∧
      σ'.writes = ∅ ∧ ∀ runID ∈ done, LockedReady σ' w' workspace runID) ?_ ?_ ?_
  · rintro done runID rest σ₁ w₁ hitems ⟨h₁, hworking₁, hempty₁, hready₁⟩
    refine wp_lockReadyRun hworking₁ (fun σ₂ w₂ hlater hready => ?_) fun σ₂ w₂ hlater hnot => ?_
    · refine ⟨h₁.onward' hlater.toOnward, hworking₁.later hlater, hlater.writes.trans hempty₁, ?_⟩
      intro other hmem
      rcases List.mem_append.mp hmem with hdone | hlast
      · exact (hready₁ other hdone).onward hlater.toOnward
      · obtain rfl := List.mem_singleton.mp hlast
        exact hready
    · exact herror σ₂ w₂ runID (h₁.onward' hlater.toOnward) (by simp [hitems]) hnot
  · exact fun σ' w' ⟨h', hworking', hempty', hready'⟩ => hok σ' w' h' hworking' hempty' hready'
  · exact ⟨h, hworking, hempty, by simp⟩

/-- A fresh request with the input of its job: the rows that it has written since are
among `keys`, and `rows` are those that it inserted. -/
structure Inserting (p : Policy) (s : Service) (w₀ : World) (workspace : Uuid) (key : String)
    (request : JobRequest) (randomInput randomJob : BitVec 128) (digest : String)
    (inputID : Uuid) (input : InputRow) (keys : List Key) (rows : List ((k : Key) × Row k))
    (σ : Session) (w : World) : Prop where
  fresh : Fresh p s w₀ workspace key request randomInput randomJob σ w
  working : Working (only keys)
    (.start (.createJob workspace key request randomInput randomJob) w₀.clock w₀.store) σ w
  ready : ∀ runID ∈ request.runIDs, LockedReady σ w workspace runID
  input : Normalized σ w workspace digest (newID randomInput) inputID input
  inserted : ∀ row ∈ rows, row.1 ∈ keys ∧ Wrote σ w row.1 none (some row.2)

section Inserting

variable {inputID : Uuid} {input : InputRow} {keys : List Key} {rows : List ((k : Key) × Row k)}

/-- Waiting for a lock or reading leaves a fresh request where it is, since no other
transaction touches the rows that it has locked. -/
theorem Inserting.later
    (h : Inserting p s w₀ workspace key request randomInput randomJob digest inputID input keys
      rows σ w) (hlater : (contract p s).Later σ w σ' w') :
    Inserting p s w₀ workspace key request randomInput randomJob digest inputID input keys rows
      σ' w' where
  fresh := h.fresh.onward' hlater.toOnward
  working := h.working.later hlater
  ready runID hmem := (h.ready runID hmem).onward hlater.toOnward
  input := h.input.later hlater
  inserted row hmem := ⟨(h.inserted row hmem).1, (h.inserted row hmem).2.later hlater⟩

/-- A row that is none of the input's and none of those inserted so far is written. -/
theorem Inserting.write
    (h : Inserting p s w₀ workspace key request randomInput randomJob digest inputID input keys
      rows σ w) {k : Key} (hlocked : σ.locks k = some .exclusive) (hinput : ¬ k.ofInput)
    (hk : ∀ row ∈ rows, row.1 ≠ k) (row : Option (Row k)) :
    Inserting p s w₀ workspace key request randomInput randomJob digest inputID input (k :: keys)
      rows (σ.write k row) w := by
  have honward : (contract p s).Onward σ w (σ.write k row) w := Contract.Onward.refl.write k row
  refine ⟨h.fresh.onward' honward, h.working.writeOnly hlocked row,
    fun runID hmem => (h.ready runID hmem).onward honward, h.input.write hinput row, ?_⟩
  intro other hmem
  obtain ⟨hkeys, hwrote⟩ := h.inserted other hmem
  exact ⟨List.mem_cons_of_mem k hkeys, hwrote.write (hk other hmem) row⟩

/-- A row is inserted at a key that was found to be free. -/
theorem Inserting.insert
    (h : Inserting p s w₀ workspace key request randomInput randomJob digest inputID input keys
      rows σ w) {k : Key} (hlocked : σ.locks k = some .exclusive) (hinput : ¬ k.ofInput)
    (hk : k ∉ keys) (hfree : (σ.after w).lookup k = none) (row : Row k) :
    Inserting p s w₀ workspace key request randomInput randomJob digest inputID input (k :: keys)
      (⟨k, row⟩ :: rows) (σ.write k (some row)) w := by
  have hwrite := h.write hlocked hinput (fun other hmem heq => hk (heq ▸ (h.inserted other hmem).1))
    (some row)
  refine ⟨hwrite.fresh, hwrite.working, hwrite.ready, hwrite.input, ?_⟩
  intro other hmem
  rcases List.mem_cons.mp hmem with rfl | hmem
  · exact ⟨List.mem_cons_self, .of_write hlocked ((h.working.after_only hk).symm.trans hfree) _⟩
  · exact hwrite.inserted other hmem

/-- Under exclusive keys, an insert at a key that is free when the request begins cannot
fail, so that its error needs no explanation. -/
theorem Inserting.taken {reply : Job × Bool → Reply} {context constraint : String}
    (h : Inserting p s w₀ workspace key request randomInput randomJob digest inputID input keys
      rows σ w) {k : Key} (hk : k ∉ keys) (hordinary : constraint ≠ outboxConstraint)
    (hfree : p.keyed → w₀.rows.idempotency workspace key = none → w.rows.lookup k = none)
    (htaken : ((σ.after w).lookup k).isSome) :
    Replies p s reply (.error (.database context (.uniqueViolation constraint))) σ w := by
  refine h.fresh.error (by simpa [Err.Ordinary] using hordinary) fun hkeyed _ hnone _ => ?_
  rw [h.working.after_only hk, hfree hkeyed hnone] at htaken
  cases htaken

/-- A job is inserted over its input, with its notification and the record of its key. -/
theorem Inserting.wp_insertJob (reply : Job × Bool → Reply) {now : Timestamp}
    {post : Except Err Job → Session → World → Prop}
    (h : Inserting p s w₀ workspace key request randomInput randomJob digest inputID input
      [.input (newID randomInput), .inputDigest workspace digest] [] σ w) (hnow : w₀.clock = now)
    (hdigest : normalizedDigest s request = .ok (operation, digest))
    (hvalid : request.runIDs.all validID = true)
    (hlength : input.runs.length = expectedInputs input.operation)
    (hdescribes : Describes s workspace digest input)
    (hreply : ∀ job, reply (job, false) = .job job false)
    (hok : ∀ job σ' w', Replies p s reply (.ok (job, false)) σ' w' → post (.ok job) σ' w')
    (herror : ∀ error σ' w', Replies p s reply (.error error) σ' w' → post (.error error) σ' w') :
    (contract p s).wp (insertJob workspace key operation digest inputID (newID randomJob) now)
      post σ w := by
  refine Contract.wp_then (wp_insertInto ?_ ?_)
  · -- the identifier of the job is taken
    intro w₁ hlater _ htaken
    have h₁ := h.later hlater
    exact herror _ _ _ (h₁.taken (by simp) (by simp [outboxConstraint])
      (fun hkeyed _ => (h₁.fresh.free hkeyed).2.1) htaken)
  intro σ₁ w₁ hlater₁ _ hlocked₁ hfree₁
  have h₁ := (h.later hlater₁).insert hlocked₁ (by simp [Key.ofInput]) (by simp) hfree₁
    (JobRow.create workspace inputID now)
  refine Contract.wp_then (wp_notify ?_ ?_)
  · -- a job without a row has no notification either
    intro w' hlater hinv htaken
    have h' := h₁.later hlater
    have hnone := hinv.outbox_none (h'.inserted _ List.mem_cons_self).2.base 1
    rw [show (Session.after _ w').outbox (newID randomJob) 1 = none from
      (h'.working.after_only (k := .outbox (newID randomJob) 1) (by simp)).trans hnone] at htaken
    cases htaken
  intro sentID σ₂ w₂ hlater₂ _ hlocked₂ hfree₂
  have h₂ := (h₁.later hlater₂).insert hlocked₂ (by simp [Key.ofInput]) (by simp) hfree₂
    (OutboxRow.create now sentID (notificationPayload (newID randomJob) 1 operation))
  refine Contract.wp_then (wp_audit fun auditID auditRow σ₃ w₃ hlater₃ _ hlocked₃ => ?_)
  dsimp only
  have h₃ := (h₂.later hlater₃).write hlocked₃ (by simp [Key.ofInput]) (by simp) auditRow
  refine Contract.wp_then (wp_insertInto ?_ ?_)
  · -- another request has taken the key
    intro w₄ hlater _ htaken
    have h₄ := h₃.later hlater
    exact herror _ _ _ (h₄.taken (by simp) (by simp [outboxConstraint])
      (fun hkeyed hnone => (h₄.fresh.free hkeyed).2.2 hnone) htaken)
  intro σ₄ w₄ hlater₄ _ hlocked₄ hfree₄
  have h₄ := (h₃.later hlater₄).insert hlocked₄ (by simp [Key.ofInput]) (by simp) hfree₄
    { requestDigest := digest, responseID := newID randomJob, createdAt := now
      expiresAt := now + seconds (24 * 3600) }
  refine Contract.wp_pure (hok _ _ _ (.ok fun w₅ hrely _ _ => ?_))
  have h₅ := h₄.later (.of_rely hrely)
  have hrecord := (h₅.inserted _ List.mem_cons_self).2
  have hsent := (h₅.inserted _ (List.mem_cons_of_mem _ List.mem_cons_self)).2
  have hjob := (h₅.inserted _ (List.mem_cons_of_mem _ (List.mem_cons_of_mem _ List.mem_cons_self))).2
  refine h₅.working.guarantee_created hnow hdigest hvalid h₅.ready h₅.input hlength hdescribes hjob
    hsent rfl hrecord rfl ⟨by simp [Call.draws], by simp [Call.draws]⟩ ⟨_, _, rfl⟩ ?_
  rw [Effect, h₅.working.call, hreply]
  refine ⟨operation, digest, hdigest, ?_⟩
  rw [if_neg Bool.false_ne_true, h₅.working.now]
  subst hnow
  exact ⟨hrecord.base, rfl, hjob.base, ⟨_, hjob.after, rfl⟩, hrecord.after⟩

end Inserting

/-- The runs of a request are read from their texts, which were read when the runs were
locked. -/
theorem wp_runParams {α : Type} {context : String} {k : Uuid → Option Uuid → Tx α}
    {post : Except Err α → Session → World → Prop}
    (hlength : request.runIDs.length = expectedInputs operation)
    (hparsed : ∀ runID ∈ request.runIDs, ∃ run, Uuid.parse runID = some run)
    (hok : ∀ runA runB, request.runIDs.map Uuid.parse = (runA :: runB.toList).map some →
      (contract p s).wp (k runA runB) post σ w) :
    (contract p s).wp (do
      let runA ← uuidParam context (request.runIDs.headD "")
      let runB ← nullableUuidParam context request.runIDs.tail.head?
      k runA runB) post σ w := by
  rcases hids : request.runIDs with _ | ⟨first, _ | ⟨second, _ | ⟨third, rest⟩⟩⟩
  · rw [hids] at hlength
    cases operation <;> simp [expectedInputs] at hlength
  · obtain ⟨runA, hrunA⟩ := hparsed first (by simp [hids])
    refine Contract.wp_then (wp_uuidParam_of_parse hrunA (Contract.wp_then (Contract.wp_pure ?_)))
    exact hok runA none (by simp [hids, hrunA])
  · obtain ⟨runA, hrunA⟩ := hparsed first (by simp [hids])
    obtain ⟨runB, hrunB⟩ := hparsed second (by simp [hids])
    refine Contract.wp_then (wp_uuidParam_of_parse hrunA (Contract.wp_then ?_))
    refine Contract.wp_then (wp_uuidParam_of_parse hrunB (Contract.wp_pure ?_))
    exact hok runA (some runB) (by simp [hids, hrunA, hrunB])
  · rw [hids] at hlength
    cases operation <;> simp [expectedInputs] at hlength

/-- A fresh request inserts a job over its runs, or says why it cannot. -/
theorem Fresh.wp_createFreshJob (reply : Job × Bool → Reply) {now : Timestamp}
    {post : Except Err Job → Session → World → Prop}
    (h : Fresh p s w₀ workspace key request randomInput randomJob σ w)
    (hworking : Working nothing
      (.start (.createJob workspace key request randomInput randomJob) w₀.clock w₀.store) σ w)
    (hempty : σ.writes = ∅) (hnow : w₀.clock = now)
    (hdigest : normalizedDigest s request = .ok (operation, digest))
    (hvalid : request.runIDs.all validID = true)
    (hreply : ∀ job, reply (job, false) = .job job false)
    (hok : ∀ job σ' w', Replies p s reply (.ok (job, false)) σ' w' → post (.ok job) σ' w')
    (herror : ∀ error σ' w', Replies p s reply (.error error) σ' w' → post (.error error) σ' w') :
    (contract p s).wp (createFreshJob workspace key request operation digest randomInput randomJob
      now) post σ w := by
  obtain ⟨hname, _, _⟩ := normalizedDigest_eq hdigest
  have hlength : request.runIDs.length = expectedInputs operation := (analysisOperations_name hname).2.2
  rw [createFreshJob_eq]
  refine Contract.wp_then (h.wp_lockReadyRuns hworking hempty ?_ ?_)
  swap
  · -- a run is missing or not ready
    intro σ₁ w₁ runID h₁ hmem hnot
    exact herror _ _ _ (h₁.error (by simp [Err.Ordinary]) fun _ _ _ _ => ⟨runID, hmem, hnot⟩)
  intro σ₁ w₁ h₁ hworking₁ hempty₁ hready₁
  refine wp_runParams hlength
    (fun runID hmem => (hready₁ runID hmem).imp fun run hrun => hrun.choose_spec.1) ?_
  intro runA runB hruns
  refine Contract.wp_then (wp_normalizedInput hworking₁ hempty₁ ?_ ?_ ?_ ?_ ?_ ?_)
  · -- the runs of the input are those that were locked
    intro run hmem
    have hmem' : some run ∈ request.runIDs.map Uuid.parse := by
      rw [hruns]
      exact List.mem_map_of_mem hmem
    obtain ⟨runID, hrunID, hparse⟩ := List.mem_map.mp hmem'
    obtain ⟨run', found, hparse', _, hfound, hworkspace, _⟩ := hready₁ runID hrunID
    obtain rfl := Option.some.inj (hparse.symm.trans hparse')
    exact ⟨found, hfound, hworkspace⟩
  · rw [← hlength, ← List.length_map (f := Uuid.parse), hruns]
    simp [InputRow.runs]
  · exact ⟨rfl, .inl ⟨request, hdigest, hvalid, hruns⟩⟩
  · intro inputID input σ₂ w₂ honward₂ hworking₂ hinput₂ hinputLength hdescribes
    have h₂ : Inserting p s w₀ workspace key request randomInput randomJob digest inputID input
        [.input (newID randomInput), .inputDigest workspace digest] [] σ₂ w₂ :=
      ⟨h₁.onward' honward₂, hworking₂, fun runID hmem => (hready₁ runID hmem).onward honward₂,
        hinput₂, by simp⟩
    exact h₂.wp_insertJob reply hnow hdigest hvalid hinputLength hdescribes hreply hok herror
  · -- the two runs of the request are the same
    intro hshape
    refine herror _ _ _ (h₁.error (by simp [Err.Ordinary]) fun _ hdistinct => ?_)
    dsimp only at hshape
    rw [hruns, hshape] at hdistinct
    simp at hdistinct
  · -- the identifier of the input is taken
    intro σ₂ w₂ honward₂ htaken
    have h₂ := h₁.onward' honward₂
    exact herror _ _ _ (h₂.error (by simp [Err.Ordinary, outboxConstraint])
      fun hkeyed => absurd (h₂.free hkeyed).1 htaken)

end Requests

/-- The job of a record can be read. -/
theorem wp_getJob {workspace job : Uuid} {row : JobRow} {post : Except Err Job → Session → World → Prop}
    (h : Working nothing σ₀ σ w) (hrow : w.rows.job job = some row)
    (hworkspace : row.workspace = workspace)
    (hok : ∀ found σ' w', (contract p s).Later σ w σ' w' → found.id = job → post (.ok found) σ' w') :
    (contract p s).wp (getJob workspace job) post σ w := by
  unfold getJob
  refine Contract.wp_then (Contract.wp_select fun σ' w' hlater _ _ => ?_)
  obtain ⟨row', hrow', hworkspace', _⟩ := rely_job hlater.rely hrow
  have hview : ((σ'.after w').job job).filter (·.workspace = workspace) = some row' := by
    rw [show (σ'.after w').job job = some row' from
      ((h.later hlater).after_lookup (.job job)).trans hrow']
    simp [hworkspace', hworkspace]
  rw [hview]
  exact Contract.wp_pure (hok _ σ' w' hlater rfl)

/-- A request that cannot be hashed is turned down with an ordinary error. -/
theorem normalizedDigest_error {request : JobRequest} {error : Err}
    (h : normalizedDigest s request = .error error) : error.Ordinary := by
  unfold normalizedDigest at h
  split at h
  · cases h
    simp [Err.Ordinary]
  · split at h
    · split at h <;> cases h <;> simp [Err.Ordinary]
    · split at h <;> cases h
      simp [Err.Ordinary]

/-- A job request is verified: it returns the job of its key's record, or it inserts a new
job with its record, input and notification. -/
theorem wp_createJob {workspace : Uuid} {key : String} {request : JobRequest}
    {randomInput randomJob : BitVec 128}
    (hstart : p.keyed → KeyedStart (.createJob workspace key request randomInput randomJob) w) :
    (contract p s).wp (createJob s workspace key request randomInput randomJob w.clock)
      (Replies p s fun (job, reused) => .job job reused)
      (.start (.createJob workspace key request randomInput randomJob) w.clock w.store) w := by
  have h₀ := Working.start (F := nothing)
    (.createJob workspace key request randomInput randomJob) w
  unfold createJob
  refine Contract.wp_then (wp_require (fun _ => ?_) fun hkey => ?_)
  swap
  · refine .invalid_error .refl (by simp [Err.Ordinary]) fun operation digest hvalid => ?_
    simp [hvalid.key] at hkey
  refine Contract.wp_then (wp_require (fun hvalid => ?_) fun hids => ?_)
  swap
  · refine .invalid_error .refl (by simp [Err.Ordinary]) fun operation digest hvalid => ?_
    simp [hvalid.runIDs] at hids
  dsimp only
  cases hdigest : normalizedDigest s request with
  | error error =>
    refine Contract.wp_fail (.invalid_error .refl ?_ fun operation digest hvalid' => ?_)
    · exact normalizedDigest_error hdigest
    · simpa [hdigest] using hvalid'.digest
  | ok found =>
    obtain ⟨operation, digest⟩ := found
    refine Contract.wp_then (Contract.wp_select fun σ₁ w₁ hlater₁ _ hinv₁ => ?_)
    have h₁ := h₀.later hlater₁
    dsimp only
    have hview : (σ₁.after w₁).idempotency workspace key = w₁.rows.idempotency workspace key :=
      h₁.after_lookup (.idempotency workspace key)
    have hmatch : ∀ clock record, w₁.clock ≤ clock →
        w.rows.idempotency workspace key = some record → clock < record.expiresAt →
        w₁.rows.idempotency workspace key = some record := by
      intro clock record hle hrecord hclock
      refine (rely_record hlater₁.rely hrecord).resolve_right fun hexpired => ?_
      exact absurd hclock (not_lt.mpr (hexpired.trans hle))
    cases hfound : unexpiredRecord workspace key w.clock (σ₁.view w₁.store) with
    | none =>
      dsimp only
      have hfresh : Fresh p s w workspace key request randomInput randomJob σ₁ w₁ := by
        refine ⟨hlater₁.toOnward, hstart, fun record hrecord => ?_⟩
        rcases rely_record hlater₁.rely hrecord with hkept | hexpired
        · unfold unexpiredRecord at hfound
          rw [hview, hkept] at hfound
          simp at hfound
          exact hfound.trans hlater₁.clock_le
        · exact hexpired
      refine Contract.wp_then (hfresh.wp_createFreshJob (fun (job, reused) => .job job reused)
        h₁ hlater₁.writes rfl hdigest hvalid (fun _ => rfl) ?_ ?_)
      · exact fun job σ' w' h => Contract.wp_pure h
      · exact fun error σ' w' h => h
    | some record =>
      dsimp only
      have hrecord : w₁.rows.idempotency workspace key = some record := by
        unfold unexpiredRecord at hfound
        rw [hview] at hfound
        exact (Option.filter_eq_some_iff.mp hfound).1
      split
      · rename_i hdiffers
        refine Contract.wp_fail (.create_error hlater₁.toOnward (by simp [Err.Ordinary]) ?_ ?_)
        · intro w' operation' digest' old hrely hrequest hold hclock
          have hsame := (hmatch _ old hrely.clock_le hold hclock).symm.trans hrecord
          obtain rfl := Option.some.inj hsame
          have := hrequest.digest.symm.trans hdigest
          simp only [Except.ok.injEq, Prod.mk.injEq] at this
          exact ⟨rfl, this.2 ▸ hdiffers⟩
        · intro w' _ _ _ hkeyed _ hnone
          have := (rely_key_free hlater₁.rely hkeyed rfl hnone).symm.trans hrecord
          cases this
      · rename_i hsame
        obtain ⟨row, hrow, hworkspace⟩ := hinv₁.records workspace key record hrecord
        refine Contract.wp_then (wp_getJob h₁ hrow hworkspace fun job σ₂ w₂ hlater₂ hjob => ?_)
        have h₂ := h₁.later hlater₂
        refine Contract.wp_pure (.ok fun w₃ hrely _ _ => ?_)
        have h₃ := h₂.rely hrely
        refine h₃.guarantee ?_
        rw [Effect, h₃.call]
        refine ⟨operation, digest, hdigest, ?_⟩
        rw [if_pos rfl]
        have hbefore : σ₂.before = w.rows := h₃.before
        refine ⟨h₃.after_lookup, fun hkeyed hnone => ?_, fun old hremembers => ?_⟩
        · rw [hbefore] at hnone
          have := (rely_key_free hlater₁.rely hkeyed rfl hnone).symm.trans hrecord
          cases this
        · obtain ⟨hold, hclock⟩ := hremembers
          rw [hbefore] at hold
          have hle := hlater₂.clock_le.trans hrely.clock_le
          have := (hmatch _ old hle hold hclock).symm.trans hrecord
          obtain rfl := Option.some.inj this
          exact ⟨not_not.mp hsame, hjob⟩

end Tracewake.Hosted
