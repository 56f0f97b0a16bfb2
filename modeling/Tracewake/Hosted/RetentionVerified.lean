import Tracewake.Hosted.RemovalVerified

/-!
# Retention and deletion verified

A retention pass and a tenant's deletion are removals. A deletion also lets every
artifact expire that is derived from the run.
-/

namespace Tracewake.Hosted

open ReadCommitted

variable {p : Policy} {s : Service} {σ₀ σ σ' : Session} {w w' : World} {job run workspace : Uuid}
  {now : Timestamp}

/-- What `DeleteRun` removes. -/
def deletion (workspace run : Uuid) (now : Timestamp) : Removal where
  condition _ row input := row.workspace = workspace && run ∈ input.runs
  removes id row row' := id = run ∧ row.workspace = workspace ∧ row' = row.delete now
  target := some run
  sweeping := False

/-- What `EnforceRetention` removes. -/
def expiry (now : Timestamp) : Removal where
  condition store _ input := inputExpired now store input
  removes _ row row' := row.retentionExpiresAt ≤ now ∧ row' = row.expire now
  target := none
  sweeping := True

/-- The removal that a deletion makes is lawful: a deleted run stays deleted. -/
theorem deletion_lawful : (deletion workspace run now).Lawful now where
  lasts hworkspace _ hcondition := by
    simp only [deletion, Bool.and_eq_true, decide_eq_true_eq] at hcondition ⊢
    exact ⟨hworkspace.trans hcondition.1, hcondition.2⟩
  step := by
    rintro _ row _ ⟨_, _, rfl⟩ hstate
    exact ⟨.delete row hstate, rfl, rfl⟩
  covers := by
    rintro store _ row _ job input ⟨rfl, hworkspace, rfl⟩ _ hsame hrun
    simp only [deletion, Bool.and_eq_true, decide_eq_true_eq]
    exact ⟨hsame.symm.trans hworkspace, hrun⟩
  gone htarget hcondition := by
    simp only [deletion, Bool.and_eq_true, decide_eq_true_eq] at hcondition
    exact ⟨run, hcondition.2, htarget run rfl⟩

/-- An input has expired exactly when one of its runs is deleted past its retention. -/
theorem inputExpired_iff {store : Store} {input : InputRow} :
    inputExpired now store input = true ↔ ∃ run ∈ input.runs, ∃ found,
      store.run run = some found ∧ found.state = .deleted ∧ found.retentionExpiresAt ≤ now := by
  simp only [inputExpired, List.any_eq_true, Option.any_eq_true, Bool.and_eq_true,
    decide_eq_true_eq]

/-- The removal that the sweep makes is lawful: time passes in one direction only. -/
theorem expiry_lawful : (expiry now).Lawful now where
  lasts _ hruns hcondition := by
    obtain ⟨run, hrun, found, hfound, hstate, hdue⟩ := inputExpired_iff.mp hcondition
    exact inputExpired_iff.mpr ⟨run, hrun, found, hruns run found hfound hstate, hstate, hdue⟩
  step := by
    rintro _ row _ ⟨hdue, rfl⟩ hstate
    exact ⟨.expire row hstate hdue, rfl, rfl⟩
  covers := by
    rintro store run row _ job input ⟨hdue, rfl⟩ hnew _ hrun
    exact inputExpired_iff.mpr ⟨run, hrun, _, hnew, rfl, hdue⟩
  gone _ hcondition := by
    obtain ⟨run, hrun, found, hfound, hstate, _⟩ := inputExpired_iff.mp hcondition
    exact ⟨run, hrun, found, hfound, hstate⟩

/-- Once `DeleteRun` fences, no claim of a job over its run commits. -/
theorem deletion_fences {runID : String} (hparse : Uuid.parse runID = some run) :
    (deletion workspace run now).Fences p s (.deleteRun workspace runID) now 2 := by
  intro _ σ τ w reply job row row' input hk _ _ _ hapart _ _ hover hsame hcondition
  simp only [deletion, Bool.and_eq_true, decide_eq_true_eq] at hcondition ⊢
  exact ⟨⟨hsame.trans hcondition.1, hcondition.2⟩,
    fun hclaims => hapart hk job run hclaims hparse (hover run hcondition.2).1⟩

/-- Once `EnforceRetention` fences, no claim of a job over an expired run commits. -/
theorem expiry_fences : (expiry now).Fences p s .enforceRetention now 6 := by
  intro hfenced σ τ w reply job row row' input hk hkeeps _ _ hapart hguar hidle hover _ hcondition
  obtain ⟨run, hrun, found, hfound, hstate, hdue⟩ := inputExpired_iff.mp hcondition
  have hbefore : (σ.after w).run run = some found ∧
      ∃ base, w.rows.run run = some base ∧ base.retentionExpiresAt ≤ now := by
    cases hwrites : σ.writes.lookup (.run run) with
    | some written =>
      -- the pass has hidden the run itself
      have hlast : (σ.after (w.commit τ reply)).run run = (σ.after w).run run := by
        simp only [Store.run, Session.after, Session.view, Writes.lookup_apply, hwrites,
          Option.getD_some]
      have hview := hlast.symm.trans hfound
      refine ⟨hview, ?_⟩
      rcases hkeeps.allows (.run run) with hsame | ⟨old, new, hold, _, _, hexpired, _⟩
      · exact ⟨found, hsame.symm.trans hview, hdue⟩
      · exact ⟨old, hold, hexpired⟩
    | none =>
      have hnew : (τ.after w).run run = some found :=
        (after_lookup (w := w.commit τ reply) hwrites).symm.trans hfound
      have hstep := hguar.runs run
      rw [hnew] at hstep
      cases hold : w.rows.run run with
      | none =>
        rw [hold] at hstep
        cases hstep with
        | create _ hdeclared => simp [hdeclared.1] at hstate
      | some old =>
        by_cases hdeleted : old.state = .deleted
        · obtain rfl := Option.some.inj (((hguar.runs run).run_deleted hold hdeleted).symm.trans hnew)
          exact ⟨(after_lookup hwrites).trans hold, old, rfl, hdue⟩
        · exact absurd ((hguar.runsDeleted run old found hold hnew hdeleted hstate job
            (hover run hrun).2).2 hfenced) hidle
  obtain ⟨hview, base, hbase, hexpired⟩ := hbefore
  refine ⟨inputExpired_iff.mpr ⟨run, hrun, found, hview, hstate, hdue⟩, fun hclaims => ?_⟩
  exact absurd hexpired (not_le.mpr (hapart hk job run base hclaims (hover run hrun).1 hbase))

section Deletion

/-- The artifacts that the last statement of `DeleteRun` selects. -/
def derivedArtifacts (workspace run : Uuid) (store : Store) : List (Uuid × ArtifactKind) :=
  store.artifacts.filter fun key => (store.artifact key.1 key.2).any fun row =>
    row.workspace = workspace && store.jobOver key.1 fun _ input => run ∈ input.runs

/-- Artifacts of a job that is over are not added. -/
theorem rely_artifact (h : (contract p s).Rely σ w w') {kind : ArtifactKind}
    (hterminal : w.rows.Terminal job) (hartifact : w'.rows.artifact job kind ≠ none) :
    w.rows.artifact job kind ≠ none := by
  obtain ⟨row, hrow, hover⟩ := hterminal
  have hboth := rely_keeps_rows (fun rows : Store => rows.job job = some row ∧
    (rows.artifact job kind ≠ none → w.rows.artifact job kind ≠ none)) ?_ h ⟨hrow, id⟩
  · exact hboth.2 hartifact
  rintro w₁ τ reply _ _ _ hguar ⟨hrow₁, hkept⟩
  obtain ⟨hsame, hexpires⟩ := (hguar.jobs job).terminal hrow₁ hover
  refine ⟨hsame, fun hnew => hkept ?_⟩
  rcases hexpires kind with hsame | ⟨old, hold, _⟩
  · exact fun hnone => hnew (hsame.trans hnone)
  · exact fun hnone => by
      have hcontra : none = some old := hnone.symm.trans hold
      cases hcontra

/-- Where `DeleteRun` stands while it expires artifacts. -/
structure Expiring (p : Policy) (s : Service) (workspace run : Uuid) (σ₀ : Session)
    (D : Uuid → Prop) (items done : List (Uuid × ArtifactKind)) (σ : Session) (w : World) : Prop
    extends Cancelling p s (deletion workspace run σ₀.now) 2 σ₀ D (fun _ => False) σ w where
  expired : ∀ key ∈ done, σ.locks (.artifact key.1 key.2) = some .exclusive ∧
    ∀ row, (σ.after w).artifact key.1 key.2 = some row →
      row.retentionExpiresAt ≤ σ₀.now ∨ row.workspace ≠ workspace
  selected : s.CollisionFree → ∀ job kind, (σ.after w).Over job run →
    (σ.after w).artifact job kind ≠ none → (job, kind) ∈ items

namespace Cancelling

variable {D : Uuid → Prop} {k : ℕ}

/-- The deleted run is changed and in the workspace. -/
theorem deleted (h : Cancelling p s (deletion workspace run σ₀.now) k σ₀ D (fun _ => False) σ w) :
    (σ.after w).run run ≠ w.rows.run run ∧ ∃ base, w.rows.run run = some base ∧
      base.workspace = workspace := by
  have hchanged := (h.target run rfl).1
  obtain ⟨_, base, _, hbase, _, _, _, hworkspace, _⟩ := h.hidden hchanged
  exact ⟨hchanged, base, hbase, hworkspace⟩

/-- A job over the deleted run is over. -/
theorem over_terminal (h : Cancelling p s (deletion workspace run σ₀.now) k σ₀ D (fun _ => False) σ w)
    (hfree : s.CollisionFree) (hover : (σ.after w).Over job run) : (σ.after w).Terminal job :=
  (h.isOver job (h.covered hfree job run h.deleted.1 hover)).resolve_right id

/-- An artifact of a job over the deleted run is in the workspace. -/
theorem artifact_workspace
    (h : Cancelling p s (deletion workspace run σ₀.now) k σ₀ D (fun _ => False) σ w)
    (hinv : Consistent p s w.rows) (hover : (σ.after w).Over job run) {kind : ArtifactKind}
    {artifact : ArtifactRow} (hartifact : (σ.after w).artifact job kind = some artifact) :
    artifact.workspace = workspace := by
  obtain ⟨base, hbase, hbaseWorkspace⟩ := h.deleted.2
  obtain ⟨row, input, hrow, hinput, hrun⟩ := h.over_iff.mp hover
  obtain ⟨input', hinput', hworkspace⟩ := hinv.inputs job row hrow
  obtain rfl := Option.some.inj (hinput'.symm.trans hinput)
  obtain ⟨found, hfound, hplaced⟩ := hinv.placed _ _ hinput run hrun
  obtain rfl := Option.some.inj (hfound.symm.trans hbase)
  have hold : ∃ old, w.rows.artifact job kind = some old ∧ old.workspace = artifact.workspace := by
    rcases h.keeps.allows (.artifact job kind) with hsame | ⟨old, hold, hnew⟩
    · exact ⟨artifact, hsame.symm.trans hartifact, rfl⟩
    · obtain rfl := Option.some.inj (hnew.symm.trans hartifact)
      exact ⟨old, hold, rfl⟩
  obtain ⟨old, hold, hsame⟩ := hold
  obtain ⟨_, row', hrow', hartifactWorkspace⟩ := (hinv.jobs job).artifacts kind old hold
  obtain rfl := Option.some.inj (hrow.symm.trans hrow')
  rw [← hsame, hartifactWorkspace, ← hworkspace, ← hplaced, hbaseWorkspace]

end Cancelling

namespace Expiring

variable {D : Uuid → Prop} {items done : List (Uuid × ArtifactKind)}

/-- The invariant of the expiry of artifacts holds on while the others commit. -/
theorem later (h : Expiring p s workspace run σ₀ D items done σ w)
    (hlater : (contract p s).Later σ w σ' w') : Expiring p s workspace run σ₀ D items done σ' w' := by
  have h' := h.toCancelling.later hlater
  refine ⟨h', fun key hkey => ?_, fun hfree job kind hover hartifact => ?_⟩
  · obtain ⟨hlocked, hrows⟩ := h.expired key hkey
    refine ⟨hlater.exclusive _ hlocked, fun row hrow => hrows row ?_⟩
    exact (hlater.view_lookup_eq (by simp [hlocked])).symm.trans hrow
  · have hlocked := (h.hidden h.deleted.1).1
    have hbefore : (σ.after w).Over job run :=
      h.over_iff.mpr (rely_over hlater.rely hfree hlocked (h'.over_iff.mp hover))
    refine h.selected hfree job kind hbefore fun hnone => ?_
    cases hwrites : σ.writes.lookup (.artifact job kind) with
    | some written =>
      have hne : σ.locks (.artifact job kind) ≠ none := by simp [h.locked_of_written hwrites]
      exact hartifact ((hlater.view_lookup_eq hne).trans hnone)
    | none =>
      have hbase : w'.rows.artifact job kind ≠ none := fun hgone =>
        hartifact ((after_lookup (hlater.writes ▸ hwrites)).trans hgone)
      have hold : w.rows.artifact job kind = none := (after_lookup hwrites).symm.trans hnone
      by_cases hterminal : w.rows.Terminal job
      · exact rely_artifact hlater.rely hterminal hbase hold
      · -- the deletion has cancelled the job itself, so nobody else changes it
        obtain ⟨row, hrow, hstate⟩ := h.over_terminal hfree hbefore
        have hjob : σ.locks (.job job) = some .exclusive := by
          refine h.locked_of_changed (k := .job job) fun hsame => hterminal ⟨row, ?_, hstate⟩
          exact hsame.symm.trans hrow
        have hview := rely_jobView hlater.rely (by simp [hjob]) hterminal
        exact hbase ((congrFun (congrArg JobView.artifacts hview) kind).trans hold)

/-- An audit record is no part of the expiry. -/
theorem writeAudit (h : Expiring p s workspace run σ₀ D items done σ w) {id : ℕ}
    (hlocked : σ.locks (.audit id) = some .exclusive) (row : Option AuditRow) :
    Expiring p s workspace run σ₀ D items done (σ.write (.audit id) row) w := by
  have h' := h.toCancelling.writeAudit hlocked row
  have hsame : ∀ owner kind, ((σ.write (.audit id) row).after w).artifact owner kind =
      (σ.after w).artifact owner kind :=
    fun owner kind => Session.view_write_ne σ (k := .audit id) row w.store (by simp)
  refine ⟨h', fun key hkey => ?_, fun hfree job kind hover hartifact => ?_⟩
  · obtain ⟨hlockedKey, hrows⟩ := h.expired key hkey
    exact ⟨hlockedKey, fun found hfound => hrows found ((hsame key.1 key.2).symm.trans hfound)⟩
  · refine h.selected hfree job kind (h.over_iff.mpr (h'.over_iff.mp hover)) fun hnone => hartifact ?_
    exact (hsame job kind).trans hnone

/-- An artifact that exists belongs to a job that has succeeded. -/
theorem writeArtifact (h : Expiring p s workspace run σ₀ D items done σ w)
    (hinv : Consistent p s w.rows) {key : Uuid × ArtifactKind} {row : ArtifactRow}
    (hlocked : σ.locks (.artifact key.1 key.2) = some .exclusive)
    (hrow : (σ.after w).artifact key.1 key.2 = some row) :
    Expiring p s workspace run σ₀ D items (done ++ [key])
      (σ.write (.artifact key.1 key.2) (some (row.expire σ₀.now))) w := by
  have hbefore : ExpiresArtifact σ₀.now (w.rows.artifact key.1 key.2) (some row) := by
    have hallows : ExpiresArtifact σ₀.now (w.rows.artifact key.1 key.2)
        ((σ.after w).artifact key.1 key.2) := h.keeps.allows (.artifact key.1 key.2)
    rwa [hrow] at hallows
  have hterminal : w.rows.Terminal key.1 := by
    have hbase : w.rows.artifact key.1 key.2 ≠ none := by
      rcases hbefore with hsame | ⟨old, hold, _⟩
      · simp [← hsame]
      · simp [hold]
    obtain ⟨artifact, hartifact⟩ := Option.ne_none_iff_exists'.mp hbase
    obtain ⟨job, hjob, hsucceeded⟩ := (hinv.jobs key.1).succeeded_of_artifact hartifact
    refine ⟨job, hjob, ?_⟩
    rw [hsucceeded]
    rfl
  have hwritten : Removing p s (deletion workspace run σ₀.now) σ₀
      (σ.write (.artifact key.1 key.2) (some (row.expire σ₀.now))) w := by
    refine h.toRemoving.write hlocked (hbefore.trans (.inr ⟨row, rfl, rfl⟩)) (by simp) (by simp)
      (by simp) (by simp) ?_
    rintro job kind heq
    simp only [Key.artifact.injEq] at heq
    exact heq.1 ▸ hterminal
  have h' := h.toCancelling.writeOther hwritten (by simp) (by simp) (by simp) (by simp)
  have hself : ((σ.write (.artifact key.1 key.2) (some (row.expire σ₀.now))).after w).artifact
      key.1 key.2 = some (row.expire σ₀.now) := Session.view_write_self σ _ _ w.store
  have hother : ∀ other : Uuid × ArtifactKind, other ≠ key →
      ((σ.write (.artifact key.1 key.2) (some (row.expire σ₀.now))).after w).artifact other.1 other.2 =
        (σ.after w).artifact other.1 other.2 := by
    intro other hne
    refine Session.view_write_ne σ _ w.store fun heq => hne ?_
    simp only [Key.artifact.injEq] at heq
    exact Prod.ext heq.1 heq.2
  refine ⟨h', fun other hkey => ?_, fun hfree job kind hover hartifact => ?_⟩
  · by_cases hne : other = key
    · subst hne
      refine ⟨hlocked, fun found hfound => .inl ?_⟩
      obtain rfl := Option.some.inj (hself.symm.trans hfound)
      exact le_rfl
    · have hdone : other ∈ done := by simpa [hne] using hkey
      obtain ⟨hlockedOther, hrows⟩ := h.expired other hdone
      exact ⟨hlockedOther, fun found hfound => hrows found ((hother other hne).symm.trans hfound)⟩
  · refine h.selected hfree job kind (h.over_iff.mpr (h'.over_iff.mp hover)) fun hnone => ?_
    by_cases hne : (job, kind) = key
    · subst hne
      have hcontra : none = some row := hnone.symm.trans hrow
      cases hcontra
    · exact hartifact ((hother _ hne).trans hnone)

/-- What a deletion has done when it commits. -/
theorem effect (h : Expiring p s workspace run σ₀ D items items σ w) (hinv : Consistent p s w.rows)
    {runID : String} (hparse : Uuid.parse runID = some run) : DeleteEffect s (σ.after w) σ runID := by
  obtain ⟨found, hfound, hstate⟩ := (h.target run rfl).2
  refine ⟨run, found, hparse, hfound, hstate, fun hfree job hover => ?_⟩
  refine ⟨h.over_terminal hfree hover, fun kind artifact hartifact => ?_⟩
  have hmem := h.selected hfree job kind hover (by simp [hartifact])
  rw [h.now]
  exact ((h.expired _ hmem).2 artifact hartifact).resolve_right
    fun hne => hne (h.artifact_workspace hinv hover hartifact)

end Expiring

/-- The last update of `DeleteRun`. -/
theorem wp_expireDerivedArtifacts {D : Uuid → Prop}
    {post : Except Err (List ((_ : Uuid × ArtifactKind) × ArtifactRow)) → Session → World → Prop}
    (h : Cancelling p s (deletion workspace run σ₀.now) 2 σ₀ D (fun _ => False) σ w)
    (hnow : σ₀.now = now)
    (hok : ∀ items updated σ' w', Expiring p s workspace run σ₀ D items items σ' w' →
      post (.ok updated) σ' w') :
    (contract p s).wp (expireDerivedArtifacts now workspace run) post σ w := by
  unfold expireDerivedArtifacts
  refine Contract.wp_update (fun store done σ' w' =>
    Expiring p s workspace run σ₀ D (derivedArtifacts workspace run store) done σ' w') ?_ ?_ ?_ ?_
    (fun store updated σ' w' h' => hok _ updated σ' w' h')
  · intro σ' w' hlater _ hinv
    have h' := h.later hlater
    refine ⟨h', by simp, fun hfree job kind hover hartifact => ?_⟩
    obtain ⟨artifact, hfound⟩ := Option.ne_none_iff_exists'.mp hartifact
    refine List.mem_filter.mpr ⟨Store.mem_artifacts.mpr hartifact, ?_⟩
    rw [show Store.artifact (σ'.view w'.store) job kind = some artifact from hfound]
    simp only [Option.any_some, Bool.and_eq_true, decide_eq_true_eq]
    refine ⟨h'.artifact_workspace hinv hover hfound, ?_⟩
    obtain ⟨row, input, hrow, hinput, hrun⟩ := hover
    simp only [Store.jobOver, Option.any_eq_true]
    exact ⟨row, hrow, input, hinput, by simpa using hrun⟩
  · exact fun store done σ₁ w₁ σ₂ w₂ h₁ hlater _ => h₁.later hlater
  · rintro store done key σ₁ w₁ _ hselected h₁ _ hlocked hskip
    refine ⟨h₁.toCancelling, fun other hkey => ?_, h₁.selected⟩
    rcases List.mem_append.mp hkey with hdone | hlast
    · exact h₁.expired other hdone
    · obtain rfl := List.mem_singleton.mp hlast
      refine ⟨hlocked, fun row hrow => .inr fun hworkspace => ?_⟩
      obtain ⟨_, _, hqualifies⟩ := (Option.any_eq_true _ _).mp hselected
      simp only [Bool.and_eq_true] at hqualifies
      rw [show (σ₁.view w₁.store).lookup (.artifact other.1 other.2) = some row from hrow] at hskip
      simp [hworkspace, hqualifies.2] at hskip
  · rintro store done key row σ₁ w₁ _ _ h₁ hinv hlocked hrow _
    have hwritten := h₁.writeArtifact hinv hlocked hrow
    rw [hnow] at hwritten
    exact hnow ▸ hwritten

/-- Deleting a run is verified: the run goes, the attempts are fenced, the jobs are
cancelled and the artifacts expire, and the commit gives the guarantee. -/
theorem wp_deleteRun {runID : String} :
    (contract p s).wp (deleteRun workspace runID w.clock) (Replies p s fun _ => .done)
      (.start (.deleteRun workspace runID) w.clock w.store) w := by
  have h₀ : Working nothing (.start (.deleteRun workspace runID) w.clock w.store)
      (.start (.deleteRun workspace runID) w.clock w.store) w := .start _ w
  have herror : ∀ error σ' w', Working nothing (.start (.deleteRun workspace runID) w.clock w.store)
      σ' w' → Err.Ordinary error → Replies p s (fun _ : Unit => Reply.done) (.error error) σ' w' :=
    fun error σ' w' h' hordinary => .error (h'.call ▸ trivial) hordinary
  unfold deleteRun
  refine Contract.wp_then (wp_uuidParam (fun run hparse => ?_)
    (herror _ _ _ h₀ (by simp [Err.Ordinary])))
  refine Contract.wp_then (Contract.wp_snapshot_counted (Contract.wp_updateKey ?_ ?_ ?_))
  · intro σ' w' hlater _ _ _
    exact Contract.wp_then (wp_require (by simp)
      fun _ => herror _ _ _ (h₀.later hlater) (by simp [Err.Ordinary]))
  · intro σ₁ w₁ σ' w' hlater₁ _ hlater' _ _ _ _ _
    exact Contract.wp_then (wp_require (by simp)
      fun _ => herror _ _ _ (h₀.later (hlater₁.trans hlater')) (by simp [Err.Ordinary]))
  · intro σ₁ w₁ σ₂ w₂ row hlater₁ _ hlater₂ _ hlocked hrow hqualifies hcount
    simp only [Bool.and_eq_true, decide_eq_true_eq] at hqualifies
    refine Contract.wp_then (wp_require (fun _ => ?_) (by simp))
    have h₂ := h₀.later (hlater₁.trans hlater₂)
    have hbase : w₂.rows.run run = some row := (h₂.after_lookup (.run run)).symm.trans hrow
    have hself : ((σ₂.write (.run run) (some (row.delete w.clock))).after w₂).run run =
        some (row.delete w.clock) := Session.view_write_self σ₂ _ _ w₂.store
    have hother : ∀ k : Key, k ≠ .run run →
        ((σ₂.write (.run run) (some (row.delete w.clock))).after w₂).lookup k = w₂.rows.lookup k :=
      fun k hk => (Session.view_write_ne σ₂ _ w₂.store hk).trans (h₂.after_lookup k)
    have hremoving : Removing p s (deletion workspace run w.clock)
        (.start (.deleteRun workspace runID) w.clock w.store)
        (σ₂.write (.run run) (some (row.delete w.clock))) w₂ := by
      refine ⟨h₂.of_nothing.write hlocked (.inr ⟨row, _, hbase, rfl, hqualifies.2, rfl,
        hqualifies.1, rfl⟩), deletion_lawful, ?_, ?_, ?_, ?_⟩
      · rintro _ ⟨⟩
        refine ⟨fun hsame => ?_, _, hself, rfl⟩
        obtain heq := Option.some.inj (hbase.symm.trans (hsame.symm.trans hself))
        exact hqualifies.2 (by rw [heq]; rfl)
      · exact fun job n hchanged => absurd (hother (.attempt job n) (by simp)) hchanged
      · exact fun job hchanged => absurd (hother (.job job) (by simp)) hchanged
      · exact fun job kind hchanged => absurd (hother (.artifact job kind) (by simp)) hchanged
    have hfences : (deletion workspace run w.clock).Fences p s (.deleteRun workspace runID)
        w.clock 2 := deletion_fences hparse
    refine Contract.wp_then (wp_fenceDerived hremoving rfl hfences
      (Nat.succ_le_succ (Nat.succ_le_of_lt (Nat.lt_of_le_of_lt (Nat.zero_le _) hcount)))
      fun _ σ₃ w₃ h₃ hcount₃ hquiet₃ => ?_)
    refine Contract.wp_then (wp_cancelDerived h₃ rfl hfences hcount₃ hquiet₃
      fun D σ₄ w₄ h₄ => ?_)
    have hnow : (Session.start (.deleteRun workspace runID) w.clock w.store : Session).now =
        w.clock := rfl
    refine Contract.wp_then (wp_expireDerivedArtifacts (hnow ▸ h₄) hnow fun items _ σ₅ w₅ h₅ => ?_)
    refine wp_audit fun id record σ₆ w₆ hlater₆ _ hlocked₆ => ?_
    have h₆ := (h₅.later hlater₆).writeAudit hlocked₆ record
    refine .ok fun w₇ hrely hinv _ => ?_
    have h₇ := h₆.later (.of_rely hrely)
    refine h₇.toCancelling.guarantee hinv (fun hsweeping => hsweeping.elim) ?_
    rw [Effect, h₇.call]
    exact h₇.effect hinv hparse

end Deletion

section Retention

/-- Where `EnforceRetention` stands before it turns to jobs, after `n` statements. -/
structure Sweeping (n : ℕ) (σ₀ σ : Session) (w : World) : Prop
    extends Working ((expiry σ₀.now).footprint σ₀.now) σ₀ σ w where
  untouched : ∀ k : Key, k.owner ≠ none → σ.writes.lookup k = none
  counted : n ≤ σ.statements

namespace Sweeping

variable {n : ℕ}

/-- The invariant of the sweep holds on while the others commit. -/
theorem later (h : Sweeping n σ₀ σ w) (hlater : (contract p s).Later σ w σ' w') :
    Sweeping n σ₀ σ' w' :=
  ⟨h.toWorking.later hlater, fun k hk => by rw [hlater.writes]; exact h.untouched k hk,
    h.counted.trans hlater.statements⟩

/-- The next statement begins. -/
theorem next (h : Sweeping n σ₀ σ w) (hlater : (contract p s).Later σ w σ' w')
    (hstatements : σ'.statements = σ.statements + 1) : Sweeping (n + 1) σ₀ σ' w' := by
  refine ⟨h.toWorking.later hlater, (h.later hlater).untouched, ?_⟩
  have := h.counted
  omega

/-- A row that belongs to no job is written. -/
theorem write (h : Sweeping n σ₀ σ w) {k : Key} (howner : k.owner = none)
    (hlocked : σ.locks k = some .exclusive) {row : Option (Row k)}
    (hallows : ((expiry σ₀.now).footprint σ₀.now).Allows k (w.rows.lookup k) row) :
    Sweeping n σ₀ (σ.write k row) w := by
  refine ⟨h.toWorking.write hlocked hallows, fun other hother => ?_, h.counted⟩
  refine (AList.lookup_insert_ne ?_).trans (h.untouched other hother)
  rintro rfl
  exact hother howner

/-- A pass that has not turned to jobs is a removal. -/
theorem removing (h : Sweeping n σ₀ σ w) : Removing p s (expiry σ₀.now) σ₀ σ w := by
  refine ⟨h.toWorking, expiry_lawful, ?_, ?_, ?_, ?_⟩
  · rintro _ ⟨⟩
  · intro job m hchanged
    exact absurd (after_lookup (h.untouched (.attempt job m) (by simp [Key.owner]))) hchanged
  · intro job hchanged
    exact absurd (after_lookup (h.untouched (.job job) (by simp [Key.owner]))) hchanged
  · intro job kind hchanged
    exact absurd (after_lookup (h.untouched (.artifact job kind) (by simp [Key.owner]))) hchanged

end Sweeping

variable {n : ℕ} {α : Type}

/-- The first statement of `EnforceRetention`. -/
theorem wp_expireRuns {post : Except Err (List ((_ : Uuid) × RunRow)) → Session → World → Prop}
    (h : Sweeping n σ₀ σ w) (hnow : σ₀.now = now)
    (hok : ∀ expired σ' w', Sweeping (n + 1) σ₀ σ' w' → post (.ok expired) σ' w') :
    (contract p s).wp (expireRuns now) post σ w := by
  refine Contract.wp_update (fun _ _ σ' w' => Sweeping (n + 1) σ₀ σ' w') ?_ ?_ ?_ ?_
    fun _ expired σ' w' h' => hok expired σ' w' h'
  · exact fun σ' w' hlater hstatements _ => h.next hlater hstatements
  · exact fun _ _ _ _ _ _ h' hlater _ => h'.later hlater
  · exact fun _ _ _ _ _ _ _ h' _ _ _ => h'
  · intro _ _ id row σ' w' _ _ h' _ hlocked hrow hqualifies
    simp only [Bool.and_eq_true, decide_eq_true_eq] at hqualifies
    refine h'.write rfl hlocked (.inr ⟨row, _, ?_, rfl, hqualifies.1, ?_⟩)
    · rcases h'.keeps.allows (.run id) with hsame | ⟨old, new, _, hnew, _, _, rfl⟩
      · exact hsame.symm.trans hrow
      · obtain rfl := Option.some.inj (hnew.symm.trans hrow)
        exact absurd rfl hqualifies.1
    · rw [hnow]
      exact ⟨hqualifies.2, rfl⟩

/-- A statement of `EnforceRetention` that removes rows of a table without jobs. -/
theorem wp_remove {ι : Type} {key : ι → Key} {scan : Store → List ι}
    {qualifies : Store → (i : ι) → Row (key i) → Bool}
    {post : Except Err ℕ → Session → World → Prop} (h : Sweeping n σ₀ σ w)
    (hremove : ∀ i row σ' w' store, Sweeping (n + 1) σ₀ σ' w' → Consistent p s w'.rows →
      (σ'.after w').lookup (key i) = some row → qualifies store i row = true →
      (key i).owner = none ∧
        ((expiry σ₀.now).footprint σ₀.now).Allows (key i) (w'.rows.lookup (key i)) none)
    (hok : ∀ removed σ' w', Sweeping (n + 1) σ₀ σ' w' → post (.ok removed) σ' w') :
    (contract p s).wp (Program.delete key scan qualifies) post σ w := by
  refine Contract.wp_delete (fun σ' w' => Sweeping (n + 1) σ₀ σ' w') ?_ ?_ ?_ hok
  · exact fun σ' w' hlater hstatements _ => h.next hlater hstatements
  · exact fun _ _ _ _ h' hlater _ => h'.later hlater
  · intro store i row σ' w' h' hinv hlocked hrow hqualifies
    obtain ⟨howner, hallows⟩ := hremove i row σ' w' store h' hinv hrow hqualifies
    exact h'.write howner hlocked hallows

/-- Every artifact is authoritative, so none is an orphan. -/
theorem wp_removeOrphanArtifacts {post : Except Err ℕ → Session → World → Prop}
    (h : Sweeping n σ₀ σ w)
    (hok : ∀ removed σ' w', Sweeping (n + 1) σ₀ σ' w' → post (.ok removed) σ' w') :
    (contract p s).wp (removeOrphanArtifacts now) post σ w := by
  refine wp_remove h (fun key row σ' w' _ h' hinv hrow hqualifies => ?_) hok
  have hbase : w'.rows.artifact key.1 key.2 = some row :=
    (after_lookup (h'.untouched (.artifact key.1 key.2) (by simp [Key.owner]))).symm.trans hrow
  simp [((hinv.jobs key.1).artifacts key.2 row hbase).1] at hqualifies

/-- Expired idempotency records go, which is all that is promised of them. -/
theorem wp_removeIdempotencyRecords {post : Except Err ℕ → Session → World → Prop}
    (h : Sweeping n σ₀ σ w) (hnow : σ₀.now = now)
    (hok : ∀ removed σ' w', Sweeping (n + 1) σ₀ σ' w' → post (.ok removed) σ' w') :
    (contract p s).wp (removeIdempotencyRecords now) post σ w := by
  refine wp_remove h (fun key row σ' w' _ h' _ hrow hqualifies => ⟨rfl, .inr ⟨rfl, row, ?_, ?_⟩⟩) hok
  · rcases h'.keeps.allows (.idempotency key.1 key.2) with hsame | ⟨hgone, _⟩
    · exact hsame.symm.trans hrow
    · have hcontra : none = some row := hgone.symm.trans hrow
      cases hcontra
  · rw [hnow]
    simpa using hqualifies

/-- Expired audit records go. -/
theorem wp_removeAuditRecords {post : Except Err ℕ → Session → World → Prop}
    (h : Sweeping n σ₀ σ w)
    (hok : ∀ removed σ' w', Sweeping (n + 1) σ₀ σ' w' → post (.ok removed) σ' w') :
    (contract p s).wp (removeAuditRecords now) post σ w :=
  wp_remove h (fun _ _ _ _ _ _ _ _ _ => ⟨rfl, trivial⟩) hok

/-- Published notifications go when they are old enough. -/
theorem wp_removePublished {post : Except Err ℕ → Session → World → Prop}
    (h : Sweeping n σ₀ σ w) (hnow : σ₀.now = now)
    (hok : ∀ removed σ' w', Sweeping (n + 1) σ₀ σ' w' → post (.ok removed) σ' w') :
    (contract p s).wp (removePublished now) post σ w := by
  refine wp_remove h (fun key row σ' w' _ h' _ hrow hqualifies =>
    ⟨rfl, .inr ⟨trivial, rfl, row, ?_, ?_⟩⟩) hok
  · rcases h'.keeps.allows (.outbox key.1 key.2) with hsame | ⟨_, hgone, _⟩
    · exact hsame.symm.trans hrow
    · have hcontra : none = some row := hgone.symm.trans hrow
      cases hcontra
  · rw [hnow]
    exact hqualifies

/-- The sweep is verified: runs expire, records of four tables go, and derived work is
cancelled. -/
theorem wp_enforceRetention :
    (contract p s).wp (enforceRetention w.clock) (Replies p s .retention)
      (.start .enforceRetention w.clock w.store) w := by
  have h₀ : Sweeping 0 (.start .enforceRetention w.clock w.store)
      (.start .enforceRetention w.clock w.store) w :=
    ⟨.start _ w, fun k _ => AList.lookup_empty k, Nat.zero_le _⟩
  unfold enforceRetention
  refine Contract.wp_then (wp_expireRuns h₀ rfl fun _ σ₁ w₁ h₁ => ?_)
  refine Contract.wp_then (wp_removeOrphanArtifacts h₁ fun _ σ₂ w₂ h₂ => ?_)
  refine Contract.wp_then (wp_removeIdempotencyRecords h₂ rfl fun _ σ₃ w₃ h₃ => ?_)
  refine Contract.wp_then (wp_removeAuditRecords h₃ fun _ σ₄ w₄ h₄ => ?_)
  refine Contract.wp_then (wp_removePublished h₄ rfl fun _ σ₅ w₅ h₅ => ?_)
  refine Contract.wp_then (wp_fenceDerived h₅.removing rfl expiry_fences
    (Nat.succ_le_succ h₅.counted) fun _ σ₆ w₆ h₆ hcount₆ hquiet₆ => ?_)
  refine Contract.wp_then (wp_cancelDerived h₆ rfl expiry_fences hcount₆ hquiet₆
    fun D σ₇ w₇ h₇ => ?_)
  refine Contract.wp_pure (.ok fun w₈ hrely hinv _ => ?_)
  have h₈ := h₇.later (.of_rely hrely)
  refine h₈.guarantee hinv (fun _ => h₈.call) ?_
  rw [Effect, h₈.call]
  trivial

end Retention

end Tracewake.Hosted
