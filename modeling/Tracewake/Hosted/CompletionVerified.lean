import Tracewake.Hosted.AttemptsVerified

/-!
# Committing a result

`CompleteAttempt` registers the artifacts of an attempt, marks a validated run ready
and ends the job. It is verified in these parts.
-/

namespace Tracewake.Hosted

open ReadCommitted

variable {p : Policy} {s : Service} {σ₀ σ σ' : Session} {w w' : World} {job : Uuid}
  {Runs : Uuid → RunRow → RunRow → Prop} {v₀ v : JobView}

/-- One artifact is registered under a kind that the job does not have yet. -/
theorem wp_registerArtifact {context artifactID : String} {kind : ArtifactKind}
    {row : Uuid → ArtifactRow} {post : Except Err Uuid → Session → World → Prop}
    (h : Handling (jobFootprint job Runs) σ₀ σ w job v₀ v)
    (herror : ∀ error σ' w', σ'.call = σ₀.call → error.Ordinary → post (.error error) σ' w')
    (hok : ∀ id σ' w', Uuid.parse artifactID = some id → v.artifacts kind = none →
      (contract p s).Onward σ w σ' w' → Handling (jobFootprint job Runs) σ₀ σ' w' job v₀
        { v with artifacts := Function.update v.artifacts kind (some (row id)) } →
      post (.ok id) σ' w') :
    (contract p s).wp (registerArtifact context job kind artifactID row) post σ w := by
  unfold registerArtifact
  refine Contract.wp_then (wp_uuidParam (fun id hid => ?_) ?_)
  swap
  · exact herror _ _ _ h.call (by simp [Err.Ordinary])
  refine Contract.wp_then (wp_require (fun _ => ?_) fun _ => ?_)
  swap
  · exact herror _ _ _ h.call (by simp [Err.Ordinary])
  refine Contract.wp_then (wp_insertInto ?_ ?_)
  · exact fun w₁ hlater _ _ => herror _ _ _ (h.later hlater).call
      (by simp [Err.Ordinary, outboxConstraint])
  intro σ₁ w₁ hlater₁ _ hlocked₁ _
  have h₁ := (h.later hlater₁).writeArtifactID hlocked₁ (some ())
  refine Contract.wp_then (wp_insertInto ?_ ?_)
  · exact fun w₂ hlater _ _ => herror _ _ _ (h₁.later hlater).call
      (by simp [Err.Ordinary, outboxConstraint])
  intro σ₂ w₂ hlater₂ _ hlocked₂ hnone
  have h₂ := h₁.later hlater₂
  refine Contract.wp_pure (hok id _ _ hid ?_ ?_ (h₂.writeArtifact hlocked₂ _))
  · exact (congrFun (congrArg JobView.artifacts h₂.view) kind).symm.trans hnone
  · exact ((hlater₁.toOnward.write _ _).trans hlater₂.toOnward).write _ _

/-- Companions are registered under their kinds, and no other kind is touched. -/
structure Companions (path : String) (workspace : Uuid) (n : ℤ) (now : Timestamp)
    (entries : List (CompanionArtifact × ArtifactKind))
    (old new : ArtifactKind → Option ArtifactRow) : Prop where
  registered : ∀ entry ∈ entries, entry.1.kind = entry.2.text ∧
    entry.1.objectKey = path ++ entry.1.kind ∧ ∃ id, Uuid.parse entry.1.artifactID = some id ∧
      new entry.2 = some (entry.1.row workspace n now id)
  others : ∀ kind, (∀ entry ∈ entries, entry.2 ≠ kind) → new kind = old kind

/-- Without companions the artifacts stay as they are. -/
theorem Companions.nil {path : String} {workspace : Uuid} {n : ℤ} {now : Timestamp}
    {old : ArtifactKind → Option ArtifactRow} : Companions path workspace n now [] old old :=
  ⟨by simp, fun _ _ => rfl⟩

/-- One more companion. Its kind is none of those registered before. -/
theorem Companions.snoc {path : String} {workspace : Uuid} {n : ℤ} {now : Timestamp}
    {entries : List (CompanionArtifact × ArtifactKind)} {old new : ArtifactKind → Option ArtifactRow}
    (h : Companions path workspace n now entries old new) {entry : CompanionArtifact × ArtifactKind}
    (hkind : entry.1.kind = entry.2.text) (hkey : entry.1.objectKey = path ++ entry.1.kind)
    {id : Uuid} (hid : Uuid.parse entry.1.artifactID = some id) (hfree : new entry.2 = none) :
    Companions path workspace n now (entries ++ [entry]) old
      (Function.update new entry.2 (some (entry.1.row workspace n now id))) where
  registered := by
    intro other hmem
    rcases List.mem_append.mp hmem with hmem | hmem
    · obtain ⟨hkind', hkey', id', hid', hrow⟩ := h.registered other hmem
      have hne : other.2 ≠ entry.2 := by
        intro heq
        rw [heq, hfree] at hrow
        cases hrow
      exact ⟨hkind', hkey', id', hid', by rw [Function.update_of_ne hne, hrow]⟩
    · obtain rfl := List.mem_singleton.mp hmem
      exact ⟨hkind, hkey, id, hid, Function.update_self _ _ _⟩
  others := by
    intro kind hnone
    have hne : kind ≠ entry.2 := (hnone entry (by simp)).symm
    rw [Function.update_of_ne hne]
    exact h.others kind fun other hmem => hnone other (List.mem_append_left _ hmem)

/-- All companions are registered. -/
theorem wp_registerCompanions {current : CurrentAttempt} {path : String} {n : ℤ}
    {now : Timestamp} {entries : List (CompanionArtifact × ArtifactKind)}
    {post : Except Err Unit → Session → World → Prop}
    (h : Handling (jobFootprint current.job Runs) σ₀ σ w current.job v₀ v)
    (herror : ∀ error σ' w', σ'.call = σ₀.call → error.Ordinary → post (.error error) σ' w')
    (hok : ∀ artifacts σ' w', (contract p s).Onward σ w σ' w' →
      Handling (jobFootprint current.job Runs) σ₀ σ' w' current.job v₀
        { v with artifacts := artifacts } →
      Companions path current.workspace n now entries v.artifacts artifacts →
      post (.ok ()) σ' w') :
    (contract p s).wp (Program.forEach (registerCompanion current path n now) entries) post σ w := by
  refine Contract.wp_forEach (fun done σ' w' => ∃ artifacts, (contract p s).Onward σ w σ' w' ∧
    Handling (jobFootprint current.job Runs) σ₀ σ' w' current.job v₀
      { v with artifacts := artifacts } ∧
    Companions path current.workspace n now done v.artifacts artifacts) ?_ ?_ ?_
  · rintro done entry rest σ₁ w₁ _ ⟨artifacts, honward, h₁, hdone⟩
    unfold registerCompanion
    refine Contract.wp_then (wp_require (fun hvalid => ?_) fun _ => ?_)
    swap
    · exact herror _ _ _ h₁.call (by simp [Err.Ordinary])
    simp only [Bool.and_eq_true, decide_eq_true_eq] at hvalid
    refine Contract.wp_then (wp_registerArtifact h₁ herror ?_)
    intro id σ₂ w₂ hid hfree honward₂ h₂
    exact Contract.wp_pure
      ⟨_, honward.trans honward₂, h₂, hdone.snoc hvalid.1.2 hvalid.2 hid hfree⟩
  · rintro σ' w' ⟨artifacts, honward, h', hdone⟩
    exact hok artifacts σ' w' honward h' hdone
  · exact ⟨v.artifacts, .refl, h, .nil⟩

/-- How the success of an attempt changes runs. -/
def completedRun (input : InputRow) (result : Completion) (now : Timestamp) (run : Uuid)
    (row row' : RunRow) : Prop :=
  input.operation = .validate ∧ run = input.runA ∧ row.state = .validating ∧
    row.declaredBundleDigest = result.bundleDigest ∧
    row' = row.ready now result.bundleFormat result.cassetteFormat result.eventSchema
      result.logicalDigest result.eventCount

/-- The transaction has marked the validated run ready. -/
def BecomesReady (σ : Session) (w : World) (input : InputRow) (result : Completion)
    (now : Timestamp) : Prop :=
  ∃ found : RunRow, found.state = .validating ∧ found.declaredBundleDigest = result.bundleDigest ∧
    Wrote σ w (.run input.runA) (some found) (some (found.ready now result.bundleFormat
      result.cassetteFormat result.eventSchema result.logicalDigest result.eventCount))

/-- A run that becomes ready does so also after the others have committed. -/
theorem BecomesReady.later {input : InputRow} {result : Completion} {now : Timestamp}
    (h : BecomesReady σ w input result now) (hlater : (contract p s).Later σ w σ' w') :
    BecomesReady σ' w' input result now := by
  obtain ⟨found, hstate, hdigest, hwrote⟩ := h
  exact ⟨found, hstate, hdigest, hwrote.later hlater⟩

/-- Writes to other rows leave it open what becomes of the run. -/
theorem BecomesReady.write {input : InputRow} {result : Completion} {now : Timestamp}
    (h : BecomesReady σ w input result now) {key : Key} (hkey : Key.run input.runA ≠ key)
    (row : Option (Row key)) : BecomesReady (σ.write key row) w input result now := by
  obtain ⟨found, hstate, hdigest, hwrote⟩ := h
  exact ⟨found, hstate, hdigest, hwrote.write hkey row⟩

/-- The validated run is marked ready. -/
theorem wp_markRunReady {row : JobRow} {input : InputRow} {result : Completion} {now : Timestamp}
    {post : Except Err Unit → Session → World → Prop}
    (h : Handling (jobFootprint job fun _ _ _ => False) σ₀ σ w job v₀ v) (hrow : v.job = some row)
    (hinput : w.rows.jobInput row = some input) (hoperation : input.operation = .validate)
    (herror : ∀ error σ' w', σ'.call = σ₀.call → error.Ordinary → post (.error error) σ' w')
    (hok : ∀ σ' w', (contract p s).Onward σ w σ' w' →
      Handling (jobFootprint job (completedRun input result now)) σ₀ σ' w' job v₀ v →
      BecomesReady σ' w' input result now → post (.ok ()) σ' w') :
    (contract p s).wp (markRunReady job result now) post σ w := by
  unfold markRunReady
  refine Contract.wp_then (Contract.wp_update_single (i := input.runA) ?_ ?_ ?_ ?_)
  · exact fun σ' w' hlater _ =>
      (h.later hlater).inputRun_eq hrow rfl (rely_input hlater.rely hinput)
  · intro σ' w' hlater _ _
    refine Contract.wp_then (wp_require (fun hlength => ?_) fun _ => ?_)
    · simp at hlength
    · exact herror _ _ _ (h.later hlater).call (by simp [Err.Ordinary])
  · intro σ₁ w₁ σ' w' hlater _ hlater' _ _
    refine Contract.wp_then (wp_require (fun hlength => ?_) fun _ => ?_)
    · simp at hlength
    · exact herror _ _ _ (h.later (hlater.trans hlater')).call (by simp [Err.Ordinary])
  · intro σ₁ w₁ σ' w' found hlater _ hlater' _ hlocked hfound hqualifies
    simp only [Bool.and_eq_true, decide_eq_true_eq] at hqualifies
    have h' := h.later (hlater.trans hlater')
    have hbase : w'.rows.run input.runA = some found := (h'.after_run _).symm.trans hfound
    have hallowed : Handling (jobFootprint _ (completedRun input result now)) _ _ _ _ _ _ :=
      h'.allowRuns
    have hwritten := hallowed.writeRun hlocked hbase
      ⟨hoperation, rfl, hqualifies.1, hqualifies.2, rfl⟩
    refine Contract.wp_then (wp_require (fun _ => ?_) fun _ => ?_)
    · refine wp_require (fun _ => ?_) fun _ => ?_
      · exact hok _ _ ((hlater.trans hlater').toOnward.write _ _) hwritten
          ⟨found, hqualifies.1, hqualifies.2, .of_write hlocked hbase _⟩
      · exact herror _ _ _ hwritten.call (by simp [Err.Ordinary])
    · exact herror _ _ _ hwritten.call (by simp [Err.Ordinary])

/-- The artifacts of a completion are registered under the kinds that its operation
expects. -/
theorem companions_registered {operation : Operation} {jobID : String} {workspace : Uuid} {n : ℤ}
    {now : Timestamp} {result : Completion} {old new : Store} {artifact : Uuid}
    {artifacts : ArtifactKind → Option ArtifactRow}
    (hkind : result.kind = (expectedKind operation).text)
    (hkey : result.objectKey = attemptPath workspace jobID n ++ result.kind)
    (hlength : result.companions.length = (expectedCompanions operation).length)
    (hcompanions : Companions (attemptPath workspace jobID n) workspace n now
      (result.companions.zip (expectedCompanions operation)) (old.artifact job) artifacts)
    (hfree : artifacts (expectedKind operation) = none)
    (hnew : new.artifact job = Function.update artifacts (expectedKind operation)
      (some (result.row workspace n now artifact))) :
    Registered old new now job workspace jobID n operation result artifact where
  kind := hkind
  objectKey := hkey
  row := by rw [hnew, Function.update_self]
  length := hlength
  companions := by
    intro entry hmem
    obtain ⟨hkind', hkey', id, hid, hrow⟩ := hcompanions.registered entry hmem
    have hne : entry.2 ≠ expectedKind operation := by
      intro heq
      rw [heq, hfree] at hrow
      cases hrow
    exact ⟨hkind', hkey', id, hid, by rw [hnew, Function.update_of_ne hne, hrow]⟩
  others := by
    intro kind hne hnot
    rw [hnew, Function.update_of_ne hne]
    refine hcompanions.others kind fun entry hmem heq => hnot ?_
    exact heq ▸ (List.of_mem_zip hmem).2

/-- What the artifacts of a completion look like. -/
theorem Companions.artifact {path : String} {workspace : Uuid} {n : ℤ} {now : Timestamp}
    {entries : List (CompanionArtifact × ArtifactKind)} {old new : ArtifactKind → Option ArtifactRow}
    (h : Companions path workspace n now entries old new) {kind : ArtifactKind}
    {artifact : ArtifactRow} (hartifact : new kind = some artifact) :
    old kind = some artifact ∨ artifact.authoritative = true ∧ artifact.workspace = workspace ∧
      artifact.attemptNumber = n := by
  by_cases hmem : ∃ entry ∈ entries, entry.2 = kind
  · obtain ⟨entry, hmem, rfl⟩ := hmem
    obtain ⟨_, _, id, _, hrow⟩ := h.registered entry hmem
    obtain rfl := Option.some.inj (hrow.symm.trans hartifact)
    exact .inr ⟨rfl, rfl, rfl⟩
  · rw [h.others kind fun entry hentry heq => hmem ⟨entry, hentry, heq⟩] at hartifact
    exact .inl hartifact

/-- A commit that completes a job. A run that it validates has become ready. -/
theorem Handling.guarantee_completed {row : JobRow} {n : ℤ} {attempt : AttemptRow}
    {input : InputRow} {result : Completion} {artifact : Uuid} {jobID token : String}
    {random : BitVec 128} {artifacts : ArtifactKind → Option ArtifactRow} {reply : Reply}
    {now : Timestamp}
    (h : Handling (jobFootprint job (completedRun input result now)) σ₀ σ w job v₀
      { v₀ with
        job := some (row.succeed now artifact result.digest result.size result.schemaName
          result.schemaVersion)
        attempts := Function.update v₀.attempts n (some (attempt.succeed now))
        artifacts := Function.update artifacts (expectedKind input.operation)
          (some (result.row row.workspace n now artifact)) })
    (hcall : σ₀.call = .completeAttempt jobID n token result random) (hnow : σ₀.now = now)
    (hinv : Consistent p s w.rows) (hparse : Uuid.parse jobID = some job)
    (hrunning : v₀.Running row n attempt) (hinput : w.rows.jobInput row = some input)
    (hartifact : result.artifactID ≠ "" → Uuid.parse result.artifactID = some artifact)
    (hkind : result.kind = (expectedKind input.operation).text)
    (hkey : result.objectKey = attemptPath row.workspace jobID n ++ result.kind)
    (hlength : result.companions.length = (expectedCompanions input.operation).length)
    (hcompanions : Companions (attemptPath row.workspace jobID n) row.workspace n now
      (result.companions.zip (expectedCompanions input.operation)) v₀.artifacts artifacts)
    (hfree : artifacts (expectedKind input.operation) = none)
    (hready : input.operation = .validate → BecomesReady σ w input result now) :
    Guarantee p s σ reply w := by
  subst hnow
  have hrow : w.rows.job job = some row := (congrArg JobView.job h.base).trans hrunning.job
  have hartifacts : ∀ kind found, Function.update artifacts (expectedKind input.operation)
      (some (result.row row.workspace n σ₀.now artifact)) kind = some found →
      v₀.artifacts kind = some found ∨ found.authoritative = true ∧
        found.workspace = row.workspace ∧ found.attemptNumber = n := by
    intro kind found hfound
    by_cases hne : kind = expectedKind input.operation
    · subst hne
      rw [Function.update_self] at hfound
      obtain rfl := Option.some.inj hfound
      exact .inr ⟨rfl, rfl, rfl⟩
    · rw [Function.update_of_ne hne] at hfound
      exact hcompanions.artifact hfound
  refine h.guarantee (.single (.succeed row n attempt (result.row row.workspace n σ₀.now artifact)
    result.schemaName result.schemaVersion _ hrunning rfl rfl hartifacts)) ?_ ?_ ?_ ?_ ?_ ?_ ?_
  · rintro run old new ⟨_, _, hvalidating, _, rfl⟩
    exact ⟨.ready old _ _ _ _ _ hvalidating, hvalidating, .inl rfl⟩
  · rintro run old new ⟨hoperation, rfl, _, _⟩
    exact ⟨⟨row, input, hrow, hinput, hoperation, by simp [InputRow.runs]⟩, _, rfl, by simp⟩
  · intro _ run _ hvalidates _ _
    obtain ⟨hoperation, rfl⟩ := hinv.validates_runA hrow hinput hvalidates
    obtain ⟨found, _, _, hwrote⟩ := hready hoperation
    refine .inr fun found' hfound' => ?_
    obtain rfl := Option.some.inj (hfound'.symm.trans hwrote.after)
    simp [RunRow.ready]
  · exact fun m hnone hsome => absurd hnone ((hrunning.update_ne_none _ m).mp hsome)
  · rintro row' ⟨⟩ hqueued
    simp at hqueued
  · exact fun _ _ _ => ⟨jobID, n, token, result, random, hcall, hparse⟩
  · have hview := h.view
    obtain rfl := h.base
    rw [Effect, h.call, hcall]
    dsimp only
    rw [CompleteEffect, h.now]
    refine ⟨job, row, attempt, input, artifact, hparse, hrunning, hinput, hartifact,
      congrArg JobView.job hview, companions_registered hkind hkey hlength hcompanions hfree
        (congrArg JobView.artifacts hview), ?_⟩
    · intro hoperation
      obtain ⟨found, hvalidating, hdigest, hwrote⟩ := hready hoperation
      exact ⟨found, hwrote.base, hvalidating, hdigest, hwrote.after⟩

/-- Completing an attempt is verified: the artifacts are registered, the run becomes ready
if it was being validated, and attempt and job succeed together. -/
theorem wp_completeAttempt {jobID : String} {n : ℤ} {token : String} {result : Completion}
    {random : BitVec 128} :
    (contract p s).wp (completeAttempt s jobID n token result random w.clock)
      (Replies p s fun _ => .done)
      (.start (.completeAttempt jobID n token result random) w.clock w.store) w := by
  have herror : ∀ (error : Err) (σ' : Session) (w' : World),
      σ'.call = .completeAttempt jobID n token result random → error.Ordinary →
      Replies p s (fun _ : Unit => .done) (.error error) σ' w' :=
    fun error σ' w' hcall hordinary => .error (hcall ▸ trivial) hordinary
  unfold completeAttempt
  refine Contract.wp_then (wp_checkAttempt (.start _ w) rfl ?_ ?_)
  swap
  · exact fun error σ' w' h hordinary => herror _ _ _ h.call hordinary
  intro current row input attempt σ₁ w₁ h₁ hinv₁ hchecked
  have hhandling := hchecked.handling h₁ (F := jobFootprint current.job fun _ _ _ => False)
  dsimp only
  rw [hchecked.operation, hchecked.workspace]
  refine Contract.wp_then (wp_require (fun hkind => ?_) fun _ => ?_)
  swap
  · exact herror _ _ _ h₁.call (by simp [Err.Ordinary])
  refine Contract.wp_then (wp_require (fun hkey => ?_) fun _ => ?_)
  swap
  · exact herror _ _ _ h₁.call (by simp [Err.Ordinary])
  refine Contract.wp_then (wp_require (fun hlength => ?_) fun _ => ?_)
  swap
  · exact herror _ _ _ h₁.call (by simp [Err.Ordinary])
  simp only [Bool.and_eq_true, decide_eq_true_eq] at hkind hkey hlength
  refine Contract.wp_then (wp_registerCompanions hhandling herror ?_)
  intro artifacts σ₂ w₂ honward₂ h₂ hcompanions
  rw [hchecked.workspace] at hcompanions
  refine Contract.wp_then (wp_registerArtifact h₂ herror ?_)
  intro artifact σ₃ w₃ hartifact hfree honward₃ h₃
  have honward := honward₂.trans honward₃
  have hinput₃ : w₃.rows.jobInput row = some input := rely_input honward.rely hchecked.found
  -- what is left once the run, if any, is ready
  have hend : ∀ σ' w', (contract p s).Onward σ₃ w₃ σ' w' →
      Handling (jobFootprint current.job (completedRun input result w.clock))
        (.start (.completeAttempt jobID n token result random) w.clock w.store) σ' w' current.job
        (jobView w₁.rows current.job)
        { jobView w₁.rows current.job with
          artifacts := Function.update artifacts (expectedKind input.operation)
            (some (result.row row.workspace n w.clock artifact)) } →
      (input.operation = .validate → BecomesReady σ' w' input result w.clock) →
      (contract p s).wp (do
        let _ ← updateAttempt current.job n (fun _ => true) (·.succeed w.clock)
        let updated ← updateJob current.job
          (fun row => row.state = .running && row.currentAttemptNumber = some n)
          (fun row => row.succeed w.clock artifact result.digest result.size result.schemaName
            result.schemaVersion)
        require updated.isSome .leaseLost
        audit w.clock row.workspace (.job current.job) "job.succeeded" "worker" none
          { attempt := some n
            artifactID := some (if result.artifactID = "" then (newID random).text
              else result.artifactID) }) (Replies p s fun _ => .done) σ' w' := by
    intro σ₄ w₄ honward₄ h₄ hready₄
    refine Contract.wp_then ?_
    refine h₄.wp_updateAttempt ((honward.trans honward₄).exclusive _ hchecked.attemptLocked)
      hchecked.running.found rfl ?_
    intro σ₅ w₅ hlater₅ _ h₅
    refine Contract.wp_then ?_
    refine h₅.wp_updateJob hchecked.running.job ?_ ?_
    · simp [hchecked.running.state, hchecked.running.current]
    intro σ₆ w₆ hlater₆ _ h₆
    refine Contract.wp_then (wp_require (fun _ => ?_) fun hnone => ?_)
    swap
    · simp at hnone
    refine wp_audit fun id record σ₇ w₇ hlater₇ _ hlocked₇ => .ok fun w₈ hrely hinv₈ _ => ?_
    have h₈ := ((h₆.later hlater₇).writeAudit hlocked₇ record).later (.of_rely hrely)
    refine h₈.guarantee_completed rfl rfl hinv₈ hchecked.parsed hchecked.running ?_ ?_ hkind.1.1 hkey
      hlength hcompanions hfree ?_
    · exact rely_input hrely (rely_input hlater₇.rely (rely_input hlater₆.rely
        (rely_input hlater₅.rely (rely_input honward₄.rely hinput₃))))
    · intro hne
      rwa [if_neg hne] at hartifact
    · intro hoperation
      have hready₆ := (((hready₄ hoperation).later hlater₅).write (by simp) _).later hlater₆
      exact (((hready₆.write (by simp) _).later hlater₇).write (by simp) _).later (.of_rely hrely)
  dsimp only
  split
  · next hoperation =>
    refine Contract.wp_then (wp_markRunReady h₃ hchecked.running.job hinput₃ hoperation herror ?_)
    exact fun σ₄ w₄ honward₄ h₄ hready => hend σ₄ w₄ honward₄ h₄ fun _ => hready
  · next hoperation =>
    exact hend σ₃ w₃ .refl h₃.allowRuns fun hvalidate => absurd hvalidate hoperation

end Tracewake.Hosted
