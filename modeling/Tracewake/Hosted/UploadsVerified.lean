import Tracewake.Hosted.Commits

/-!
# Uploads

Declaring a run and receiving its bundle. The second call inserts a validation job
together with its input and its notification, and what it guarantees about these is
stated for every call that inserts a job.
-/

namespace Tracewake.Hosted

open ReadCommitted

variable {p : Policy} {s : Service} {σ₀ σ σ' : Session} {w w' : World}

/-- Only the given rows may be changed. -/
def only (keys : List Key) : Footprint Row where
  Allows key old new := key ∈ keys ∨ new = old
  refl _ _ := .inr rfl

/-- Work on listed keys leaves all other rows as they were. -/
theorem Working.after_only {keys : List Key} (h : Working (only keys) σ₀ σ w) {k : Key}
    (hkey : k ∉ keys) : (σ.after w).lookup k = w.rows.lookup k :=
  (h.keeps.allows k).resolve_left hkey

/-- One more row is changed. -/
theorem Working.writeOnly {keys : List Key} (h : Working (only keys) σ₀ σ w) {key : Key}
    (hlocked : σ.locks key = some .exclusive) (row : Option (Row key)) :
    Working (only (key :: keys)) σ₀ (σ.write key row) w :=
  (h.mono fun _ _ _ hallows => hallows.imp_left (List.mem_cons_of_mem key)).write hlocked
    (.inl List.mem_cons_self)

/-- A transaction that has changed nothing may go on to change given rows. -/
theorem Working.only_nil (h : Working nothing σ₀ σ w) : Working (only []) σ₀ σ w := h.of_nothing

section Creation

/-- What a commit that inserts a job guarantees about the jobs. -/
theorem JobGuarantee.of_create {job : Uuid} {row : JobRow} {input : InputRow}
    (hcreated : Created s w.rows (σ.after w) σ job row input) (hdraws : job ∈ σ.call.draws)
    (hwrote : Wrote σ w (.job job) none (some row))
    (hothers : ∀ key : Key, key.owner ≠ none → key ≠ .job job →
      (σ.after w).lookup key = w.rows.lookup key) : JobGuarantee p s σ w := by
  have hrow : (σ.after w).job job = some row := hwrote.after
  have hkept : ∀ other, other ≠ job → jobView (σ.after w) other = jobView w.rows other := by
    intro other hne
    ext1
    · exact hothers (.job other) (by simp [Key.owner]) (by simpa using hne)
    · exact funext fun n => hothers (.attempt other n) (by simp [Key.owner]) (by simp)
    · exact funext fun kind => hothers (.artifact other kind) (by simp [Key.owner]) (by simp)
    · exact hothers (.progress other) (by simp [Key.owner]) (by simp)
  have hview : jobView (σ.after w) job = { jobView w.rows job with job := some row } := by
    ext1
    · exact hrow
    · exact funext fun n => hothers (.attempt job n) (by simp [Key.owner]) (by simp)
    · exact funext fun kind => hothers (.artifact job kind) (by simp [Key.owner]) (by simp)
    · exact hothers (.progress job) (by simp [Key.owner]) (by simp)
  have hjob : ∀ other, other ≠ job → (σ.after w).job other = w.rows.job other :=
    fun other hne => congrArg JobView.job (hkept other hne)
  have hnew : ∀ other, w.rows.job other = none → (σ.after w).job other ≠ none → other = job := by
    intro other hnone hsome
    by_contra hne
    exact hsome ((hjob other hne).trans hnone)
  refine ⟨?_, ?_, ?_, ?_, ?_, ?_, ?_, ?_⟩
  · intro other
    by_cases hne : other = job
    · subst hne
      rw [hview, hcreated.row_eq]
      exact .single (.create _ _ hcreated.absent)
    · rw [hkept other hne]
      exact .refl
  · intro other
    by_cases hne : other = job
    · exact .inr (.inl (hne ▸ hwrote.locked))
    · exact .inl (hkept other hne)
  · intro other row' hnone hsome
    obtain rfl := hnew other hnone (by simp [hsome])
    obtain rfl := Option.some.inj (hrow.symm.trans hsome)
    exact ⟨hdraws, input, hcreated⟩
  · intro other other' hnone hsome hnone' hsome'
    rw [hnew other hnone hsome, hnew other' hnone' hsome']
  · rintro _ other run ⟨old, _, hold, _⟩ hlive ⟨row', hrow', hterminal⟩
    have hne : other ≠ job := by
      rintro rfl
      have := hold.symm.trans hcreated.absent
      cases this
    exact absurd ⟨row', (hjob other hne).symm.trans hrow', hterminal⟩ hlive
  · intro other n hnone hsome
    exact absurd ((hothers (.attempt other n) (by simp [Key.owner]) (by simp)).trans hnone) hsome
  · intro other row' hsome _
    by_cases hne : other = job
    · subst hne
      obtain rfl := Option.some.inj (hrow.symm.trans hsome)
      rw [hcreated.row_eq]
      exact .inr hcreated.notified
    · exact .inl ((hjob other hne).symm.trans hsome)
  · intro other row' hsome hsucceeded
    by_cases hne : other = job
    · subst hne
      obtain rfl := Option.some.inj (hrow.symm.trans hsome)
      rw [hcreated.row_eq] at hsucceeded
      simp at hsucceeded
    · exact .inl ((hjob other hne).symm.trans hsome)

/-- What a commit that inserts an input guarantees about the inputs. -/
theorem InputGuarantee.of_create {i : Uuid} {input : InputRow} {digest : String}
    (hinput : Wrote σ w (.input i) none (some input))
    (hdigest : Wrote σ w (.inputDigest input.workspace digest) none (some i))
    (hlength : input.runs.length = expectedInputs input.operation) (hdraws : i ∈ σ.call.draws)
    (hplaced : ∀ run ∈ input.runs, ∃ found, (σ.after w).run run = some found ∧
      found.workspace = input.workspace)
    (hdescribes : Describes s input.workspace digest input)
    (hinputs : ∀ j, j ≠ i → (σ.after w).input j = w.rows.input j)
    (hdigests : ∀ workspace other, ¬ (workspace = input.workspace ∧ other = digest) →
      (σ.after w).lookup (.inputDigest workspace other) =
        w.rows.lookup (.inputDigest workspace other)) : InputGuarantee s σ w where
  inputs := by
    intro j found hfound
    have hne : j ≠ i := by
      rintro rfl
      have := hfound.symm.trans hinput.base
      cases this
    exact (hinputs j hne).trans hfound
  newInputs := by
    intro j found hnone hfound
    by_cases hne : j = i
    · subst hne
      obtain rfl := Option.some.inj (hfound.symm.trans hinput.after)
      exact ⟨hlength, hdraws, hplaced⟩
    · rw [hinputs j hne, hnone] at hfound
      cases hfound
  digests := by
    intro workspace other j hj
    by_cases hsame : workspace = input.workspace ∧ other = digest
    · obtain ⟨rfl, rfl⟩ := hsame
      obtain rfl := Option.some.inj (hj.symm.trans hdigest.after)
      exact .inr ⟨input, hinput.after, hdescribes⟩
    · rw [hdigests workspace other hsame] at hj
      exact .inl hj
  keepsDigests := by
    intro workspace other j hj
    have hne : ¬ (workspace = input.workspace ∧ other = digest) := by
      rintro ⟨rfl, rfl⟩
      have := hj.symm.trans hdigest.base
      cases this
    exact (hdigests workspace other hne).trans hj

/-- What a commit that inserts a job guarantees about its notification. -/
theorem OutboxGuarantee.of_create {job : Uuid} {row : JobRow} {sent : OutboxRow}
    {operation : Operation} (hjob : Wrote σ w (.job job) none (some row)) (hversion : 1 ≤ row.rowVersion)
    (hsent : Wrote σ w (.outbox job 1) none (some sent))
    (hpayload : sent.payload = notificationPayload job 1 operation)
    (hothers : ∀ other version, ¬ (other = job ∧ version = 1) →
      (σ.after w).outbox other version = w.rows.outbox other version) : OutboxGuarantee σ w where
  outboxKept := by
    intro other version found hfound
    have hne : ¬ (other = job ∧ version = 1) := by
      rintro ⟨rfl, rfl⟩
      have := hfound.symm.trans hsent.base
      cases this
    exact .inl ⟨found, (hothers other version hne).trans hfound, rfl, rfl⟩
  outboxNew := by
    intro other version found hnone hfound
    by_cases hsame : other = job ∧ version = 1
    · obtain ⟨rfl, rfl⟩ := hsame
      obtain rfl := Option.some.inj (hfound.symm.trans hsent.after)
      refine ⟨hjob.locked, ⟨row, operation, hjob.after, hversion, hpayload⟩, ?_⟩
      intro row' hrow'
      have := hrow'.symm.trans hjob.base
      cases this
    · rw [hothers other version hsame, hnone] at hfound
      cases hfound

end Creation

/-- A run may be declared, under whatever entry of the digest index. -/
def uploadFootprint : Footprint Row where
  Allows
    | .activeDigest _ _, _, _ => True
    | .run _, old, new => new = old ∨ old = none ∧ ∃ row : RunRow, new = some row ∧ row.Declared
    | _, old, new => new = old
  refl key row := by
    cases key with
    | activeDigest workspace digest => trivial
    | run id => exact .inl rfl
    | _ => rfl

/-- A commit that declares a run. -/
theorem Working.guarantee_declared {reply : Reply} (h : Working uploadFootprint σ₀ σ w)
    (heffect : Effect p s σ reply w) : Guarantee p s σ reply w := by
  have hrun : ∀ run, (σ.after w).run run = w.rows.run run ∨ w.rows.run run = none ∧
      ∃ row, (σ.after w).run run = some row ∧ row.Declared :=
    fun run => h.keeps.allows (.run run)
  have hsame : ∀ run old new, w.rows.run run = some old → (σ.after w).run run = some new →
      new = old := by
    intro run old new hold hnew
    rcases hrun run with heq | ⟨hnone, _⟩
    · exact Option.some.inj (hnew.symm.trans (heq.trans hold))
    · simp [hold] at hnone
  refine ⟨.unchanged fun job => ?_, ⟨?_, ?_, ?_, ?_⟩,
    .unchanged (fun i => h.keeps.allows (.input i)) (fun _ _ => h.keeps.allows (.inputDigest _ _)),
    .unchanged fun _ _ => h.keeps.allows (.outbox _ _),
    .unchanged fun _ _ => h.keeps.allows (.idempotency _ _), h.now.trans_le h.time, heffect⟩
  · ext1
    · exact h.keeps.allows (.job job)
    · exact funext fun n => h.keeps.allows (.attempt job n)
    · exact funext fun kind => h.keeps.allows (.artifact job kind)
    · exact h.keeps.allows (.progress job)
  · intro run
    rcases hrun run with heq | ⟨hnone, row, hnew, hdeclared⟩
    · rw [heq]
      exact .same _
    · rw [hnone, hnew]
      exact .create row hdeclared
  · intro run old new hold hnew hstate hstate'
    exact absurd (hsame run old new hold hnew ▸ hstate') hstate
  · intro run old new hold hnew hstate hstate'
    rw [hsame run old new hold hnew, hstate] at hstate'
    simp at hstate'
  · intro run old new hold hnew hstate hstate'
    rw [hsame run old new hold hnew, hstate] at hstate'
    cases hstate'

/-- Inserting the run of an upload keeps to the footprint of uploads. -/
theorem wp_insertRun {runID : Uuid} {row : RunRow} {post : Except Err Bool → Session → World → Prop}
    (h : Working uploadFootprint σ₀ σ w) (hdeclared : row.Declared)
    (hok : ∀ inserted σ' w', Working uploadFootprint σ₀ σ' w' → post (.ok inserted) σ' w')
    (herror : ∀ error σ' w', Working uploadFootprint σ₀ σ' w' → error.Ordinary →
      post (.error error) σ' w') : (contract p s).wp (insertRun runID row) post σ w := by
  have htake : ∀ σ' w', Working uploadFootprint σ₀ σ' w' →
      σ'.locks (.activeDigest row.workspace row.declaredBundleDigest) = some .exclusive →
      (contract p s).wp (insertRun.take runID row) post σ' w' := by
    intro σ' w' h' hlocked
    refine Contract.wp_write hlocked ?_
    have hwritten : Working uploadFootprint σ₀ (σ'.write _ (some runID)) w' :=
      h'.write hlocked trivial
    refine Contract.wp_then (wp_insertInto ?_ ?_)
    · exact fun w'' hlater _ _ => herror _ _ _ (hwritten.later hlater)
        (by simp [Err.Ordinary, outboxConstraint])
    · intro σ₁ w₁ hlater _ hlocked₁ hnone
      have h₁ := hwritten.later hlater
      refine Contract.wp_pure (hok true _ _ (h₁.write hlocked₁ (.inr ⟨?_, row, rfl, hdeclared⟩)))
      rcases h₁.keeps.allows (.run runID) with hsame | ⟨hnone', _⟩
      · exact hsame.symm.trans hnone
      · exact hnone'
  refine Contract.wp_lock fun σ₁ w₁ hlater₁ hlock₁ _ => ?_
  have h₁ := h.later hlater₁
  have hlocked₁ : σ₁.locks (.activeDigest row.workspace row.declaredBundleDigest) =
      some .exclusive := by
    rw [hlock₁]
    exact Session.lock_locks_self σ _
  split
  · exact htake σ₁ w₁ h₁ hlocked₁
  · refine Contract.wp_lock fun σ₂ w₂ hlater₂ _ _ => ?_
    have h₂ := h₁.later hlater₂
    split
    · exact Contract.wp_pure (hok false σ₂ w₂ h₂)
    · exact htake σ₂ w₂ h₂ (hlater₂.exclusive _ hlocked₁)

/-- Declaring an upload is verified: it inserts a pending run or finds the earlier one. -/
theorem wp_createUpload {workspace : Uuid} {digest : String} {size : ℤ} {random : BitVec 128} :
    (contract p s).wp (createUpload workspace digest size random w.clock) (Replies p s .upload)
      (.start (.createUpload workspace digest size random) w.clock w.store) w := by
  have h₀ := Working.start (F := uploadFootprint) (.createUpload workspace digest size random) w
  have hend : ∀ value σ' w', Working uploadFootprint
      (.start (.createUpload workspace digest size random) w.clock w.store) σ' w' →
      Replies p s Reply.upload (.ok value) σ' w' := by
    refine fun value σ' w' h => .ok fun w'' hrely _ _ => (h.rely hrely).guarantee_declared ?_
    rw [Effect, h.call]
    trivial
  have hplain : ∀ (error : Err) (σ' : Session) (w' : World),
      σ'.call = .createUpload workspace digest size random → error.Ordinary →
      Replies p s Reply.upload (.error error) σ' w' :=
    fun error σ' w' hcall hordinary => .error (hcall ▸ trivial) hordinary
  unfold createUpload
  refine Contract.wp_then (wp_require (fun _ => ?_) fun _ => ?_)
  swap
  · exact hplain _ _ _ rfl (by simp [Err.Ordinary])
  dsimp only
  refine Contract.wp_then (wp_insertRun h₀ ⟨rfl, rfl, (newID random).text ++ "/bundle.tar", ?_⟩ ?_ ?_)
  · simp [RunRow.create, String.append_assoc]
  swap
  · exact fun error σ' w' h hordinary => hplain error σ' w' h.call hordinary
  intro inserted σ₁ w₁ h₁
  dsimp only
  split
  · exact Contract.wp_pure (hend _ _ _ h₁)
  refine Contract.wp_then (Contract.wp_select fun σ₂ w₂ hlater₂ _ _ => ?_)
  have h₂ := h₁.later hlater₂
  dsimp only
  split
  · exact Contract.wp_fail (hplain _ _ _ h₂.call (by simp [Err.Ordinary]))
  · exact Contract.wp_pure (hend _ _ _ h₂)

/-- A job that does not exist has no notifications. -/
theorem Consistent.outbox_none (hinv : Consistent p s w.rows) {job : Uuid}
    (hjob : w.rows.job job = none) (version : ℤ) : w.rows.outbox job version = none := by
  by_contra hne
  obtain ⟨sent, hsent⟩ := Option.ne_none_iff_exists'.mp hne
  obtain ⟨row, _, hrow, _⟩ := hinv.outbox job version sent hsent
  simp [hjob] at hrow

/-- A commit in which the bundle of a run arrives and its validation job is inserted. -/
theorem Working.guarantee_uploaded {workspace run inputID jobID : Uuid} {digest version : String}
    {row : RunRow} {runID : String} {sent : OutboxRow} {reply : Reply} {now : Timestamp}
    (h : Working (only [.outbox jobID 1, .job jobID, .inputDigest workspace digest, .input inputID,
      .run run]) σ₀ σ w) (hnow : σ₀.now = now)
    (hrun : Wrote σ w (.run run) (some row) (some (row.upload now version)))
    (hpending : row.state = .pending) (hworkspace : row.workspace = workspace)
    (hdigest : digest = normalizedValidationDigest s runID)
    (hinput : Wrote σ w (.input inputID) none (some ⟨workspace, .validate, run, none, none, digest, now⟩))
    (hindex : Wrote σ w (.inputDigest workspace digest) none (some inputID))
    (hjob : Wrote σ w (.job jobID) none (some (JobRow.create workspace inputID now)))
    (hsent : Wrote σ w (.outbox jobID 1) none (some sent))
    (hpayload : sent.payload = notificationPayload jobID 1 .validate)
    (hdraws : inputID ∈ σ₀.call.draws ∧ jobID ∈ σ₀.call.draws)
    (huploads : σ₀.call.Uploads run version) (heffect : Effect p s σ reply w) :
    Guarantee p s σ reply w := by
  rw [← h.call] at hdraws huploads
  have hrow : (σ.after w).run run = some (row.upload now version) := hrun.after
  have hfound : (σ.after w).jobInput (JobRow.create workspace inputID now) =
      some ⟨workspace, .validate, run, none, none, digest, now⟩ := hinput.after
  have hruns : ∀ other ∈ InputRow.runs ⟨workspace, .validate, run, none, none, digest, now⟩,
      other = run := by simp [InputRow.runs]
  have hcreated : Created s w.rows (σ.after w) σ jobID (JobRow.create workspace inputID now)
      ⟨workspace, .validate, run, none, none, digest, now⟩ := by
    refine ⟨hjob.base, by rw [h.now, hnow]; rfl, hfound, ?_, ?_, ?_, ⟨sent, hsent.after⟩⟩
    · intro _ other hmem
      rw [hruns other hmem, hrun.locked]
      simp
    · intro _ other hmem
      rw [hruns other hmem]
      exact ⟨_, hrow, hworkspace, rfl⟩
    · intro _ _ other hmem
      rw [hruns other hmem]
      exact ⟨row, hrun.base, hpending⟩
  have hchanged : ∀ other old new, w.rows.run other = some old → (σ.after w).run other = some new →
      new = old ∨ other = run ∧ old = row ∧ new = row.upload now version := by
    intro other old new hold hnew
    by_cases hne : other = run
    · subst hne
      exact .inr ⟨rfl, Option.some.inj (hold.symm.trans hrun.base),
        Option.some.inj (hnew.symm.trans hrow)⟩
    · have hkept := h.after_only (k := .run other) (by simp [hne])
      exact .inl (Option.some.inj (hnew.symm.trans (hkept.trans hold)))
  refine ⟨.of_create hcreated hdraws.2 hjob ?_, ⟨?_, ?_, ?_, ?_⟩,
    .of_create hinput hindex rfl hdraws.1 ?_ ⟨rfl, .inr ⟨rfl, runID, hdigest⟩⟩ ?_ ?_,
    .of_create hjob (by simp) hsent hpayload ?_, .unchanged ?_, h.now.trans_le h.time, heffect⟩
  · intro key howner hne
    refine h.after_only fun hmem => ?_
    simp only [List.mem_cons, List.not_mem_nil, or_false] at hmem
    rcases hmem with rfl | rfl | rfl | rfl | rfl
    · exact howner rfl
    · exact hne rfl
    · exact howner rfl
    · exact howner rfl
    · exact howner rfl
  · intro other
    by_cases hne : other = run
    · subst hne
      rw [hrow, show w.rows.run other = some row from hrun.base, h.now, hnow]
      exact .upload row version hpending
    · rw [show (σ.after w).run other = w.rows.run other from
        h.after_only (k := .run other) (by simp [hne])]
      exact .same _
  · intro other old new hold hnew hstate hstate'
    rcases hchanged other old new hold hnew with rfl | ⟨_, _, rfl⟩
    · exact absurd hstate' hstate
    · simp [RunRow.upload] at hstate'
  · intro other old new hold hnew hstate hstate'
    rcases hchanged other old new hold hnew with rfl | ⟨_, _, rfl⟩
    · simp [hstate] at hstate'
    · simp [RunRow.upload] at hstate'
  · intro other old new hold hnew hstate hstate'
    rcases hchanged other old new hold hnew with rfl | ⟨rfl, _, rfl⟩
    · simp [hstate] at hstate'
    · refine ⟨⟨jobID, hjob.base, _, _, hjob.after, hfound, rfl, ?_⟩, version, rfl, huploads⟩
      simp [InputRow.runs]
  · intro other hmem
    rw [hruns other hmem]
    exact ⟨_, hrow, hworkspace⟩
  · exact fun other hne => h.after_only (k := .input other) (by simp [hne])
  · exact fun other digest' hne => h.after_only (k := .inputDigest other digest') (by simpa using hne)
  · exact fun other version' hne => h.after_only (k := .outbox other version') (by simpa using hne)
  · exact fun other key => h.after_only (k := .idempotency other key) (by simp)

/-- Completing an upload is verified: the run is validating, and a job to validate it is
queued and announced. -/
theorem wp_completeUpload {workspace : Uuid} {runID version digest : String} {size : ℤ}
    {randomInput randomJob : BitVec 128} :
    (contract p s).wp
      (completeUpload s workspace runID version digest size randomInput randomJob w.clock)
      (Replies p s fun _ => .done)
      (.start (.completeUpload workspace runID version digest size randomInput randomJob) w.clock
        w.store) w := by
  have h₀ := Working.start (F := nothing)
    (.completeUpload workspace runID version digest size randomInput randomJob) w
  have hplain : ∀ (error : Err) (σ' : Session) (w' : World),
      σ'.call = .completeUpload workspace runID version digest size randomInput randomJob →
      error.Ordinary → Replies p s (fun _ : Unit => .done) (.error error) σ' w' :=
    fun error σ' w' hcall hordinary => .error (hcall ▸ trivial) hordinary
  unfold completeUpload
  refine Contract.wp_then (wp_uuidParam (fun run hparse => ?_) ?_)
  swap
  · exact hplain _ _ _ rfl (by simp [Err.Ordinary])
  refine Contract.wp_then (Contract.wp_updateKey ?_ ?_ ?_)
  · intro σ' w' hlater _ _
    refine Contract.wp_then (wp_require (fun hsome => ?_) fun _ => ?_)
    · simp at hsome
    · exact hplain _ _ _ (h₀.later hlater).call (by simp [Err.Ordinary])
  · intro σ₁ w₁ σ' w' hlater _ hlater' _ _ _ _
    refine Contract.wp_then (wp_require (fun hsome => ?_) fun _ => ?_)
    · simp at hsome
    · exact hplain _ _ _ (h₀.later (hlater.trans hlater')).call (by simp [Err.Ordinary])
  intro σ₁ w₁ σ₂ w₂ row hlater₁ _ hlater₂ _ hlocked hfound hqualifies
  simp only [Bool.and_eq_true, decide_eq_true_eq] at hqualifies
  obtain ⟨⟨⟨hworkspace, hpending⟩, _⟩, _⟩ := hqualifies
  have h₂ := h₀.later (hlater₁.trans hlater₂)
  have hbase : w₂.rows.run run = some row := (h₂.after_lookup (.run run)).symm.trans hfound
  refine Contract.wp_then (wp_require (fun _ => ?_) fun hnone => ?_)
  swap
  · simp at hnone
  dsimp only
  generalize hnormalized : normalizedValidationDigest s runID = normalized
  have h₃ := h₂.only_nil.writeOnly hlocked (some (row.upload w.clock version))
  have hrun₃ : Wrote (σ₂.write (.run run) (some (row.upload w.clock version))) w₂ (.run run)
      (some row) (some (row.upload w.clock version)) := .of_write hlocked hbase _
  -- an input, its digest, the job and its notification are inserted one after the other
  refine Contract.wp_then (wp_insertInto ?_ ?_)
  · exact fun w' hlater _ _ => hplain _ _ _ (h₃.later hlater).call
      (by simp [Err.Ordinary, outboxConstraint])
  intro σ₄ w₄ hlater₄ _ hlocked₄ hnone₄
  have hfree₄ := ((h₃.later hlater₄).after_only (by simp)).symm.trans hnone₄
  have h₄ := (h₃.later hlater₄).writeOnly hlocked₄
    (some ⟨workspace, .validate, run, none, none, normalized, w.clock⟩)
  refine Contract.wp_then (wp_insertInto ?_ ?_)
  · exact fun w' hlater _ _ => hplain _ _ _ (h₄.later hlater).call
      (by simp [Err.Ordinary, outboxConstraint])
  intro σ₅ w₅ hlater₅ _ hlocked₅ hnone₅
  have hfree₅ := ((h₄.later hlater₅).after_only (by simp)).symm.trans hnone₅
  have h₅ := (h₄.later hlater₅).writeOnly hlocked₅ (some (newID randomInput))
  refine Contract.wp_then (wp_insertInto ?_ ?_)
  · exact fun w' hlater _ _ => hplain _ _ _ (h₅.later hlater).call
      (by simp [Err.Ordinary, outboxConstraint])
  intro σ₆ w₆ hlater₆ _ hlocked₆ hnone₆
  have hfree₆ := ((h₅.later hlater₆).after_only (by simp)).symm.trans hnone₆
  have h₆ := (h₅.later hlater₆).writeOnly hlocked₆
    (some (JobRow.create workspace (newID randomInput) w.clock))
  have hjob₆ := Wrote.of_write hlocked₆ hfree₆
    (some (JobRow.create workspace (newID randomInput) w.clock))
  refine wp_notify ?_ ?_
  · intro w' hlater hinv htaken
    have hnone := hinv.outbox_none (hjob₆.later hlater).base 1
    have hview := (h₆.later hlater).after_only (k := .outbox (newID randomJob) 1) (by simp)
    rw [show (Session.after _ w').outbox (newID randomJob) 1 = none from hview.trans hnone] at htaken
    simp at htaken
  intro id σ₇ w₇ hlater₇ _ hlocked₇ hnone₇
  have hfree₇ := ((h₆.later hlater₇).after_only (k := .outbox (newID randomJob) 1)
    (by simp)).symm.trans hnone₇
  have h₇ := (h₆.later hlater₇).writeOnly hlocked₇
    (some (OutboxRow.create w.clock id (notificationPayload (newID randomJob) 1 .validate)))
  refine .ok fun w₈ hrely _ _ => ?_
  have hrun := ((((((((hrun₃.later hlater₄).write (by simp) _).later hlater₅).write (by simp)
    _).later hlater₆).write (by simp) _).later hlater₇).write (by simp) _).later (.of_rely hrely)
  have hinput := ((((((((Wrote.of_write hlocked₄ hfree₄ _).later hlater₅).write (by simp) _).later
    hlater₆).write (by simp) _).later hlater₇).write (by simp) _).later (.of_rely hrely))
  have hindex := (((((Wrote.of_write hlocked₅ hfree₅ _).later hlater₆).write (by simp) _).later
    hlater₇).write (by simp) _).later (.of_rely hrely)
  have hjob := ((hjob₆.later hlater₇).write (by simp) _).later (.of_rely hrely)
  have hsent := (Wrote.of_write hlocked₇ hfree₇ _).later (.of_rely hrely)
  refine (h₇.rely hrely).guarantee_uploaded rfl hrun hpending hworkspace hnormalized.symm hinput
    hindex hjob hsent rfl ⟨by simp [Call.draws], by simp [Call.draws]⟩
    ⟨workspace, runID, digest, size, randomInput, randomJob, rfl, hparse⟩ ?_
  rw [Effect, h₇.call]
  trivial

end Tracewake.Hosted
