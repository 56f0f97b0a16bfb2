import Tracewake.Hosted.AuthoritativeResult

/-!
# Deletion is closed and permanent

Once a deletion of a run has committed, all work on the run is over and no artifact
derived from it is read or retained, whatever happens later.
-/

namespace Tracewake.Hosted

open Encodings ReadCommitted

variable {p : Policy} {s : Service} {σ : Session} {w w' : World} {job run : Uuid} {now : Timestamp}

section Keys

/-- Reading digits passes no slash. -/
theorem Uuid.mem_of_readBytes {n : ℕ} {chars rest : List Char} {value value' : ℕ}
    (h : readBytes n chars value = some (value', rest)) (hslash : '/' ∈ chars) : '/' ∈ rest := by
  induction n generalizing chars value with
  | zero =>
    obtain ⟨_, rfl⟩ := Prod.mk.inj (Option.some.inj h)
    exact hslash
  | succ n ih =>
    match chars, h with
    | a :: b :: tail, h =>
      simp only [readBytes, Option.bind_eq_bind, Option.bind_eq_some_iff] at h
      obtain ⟨high, hhigh, low, hlow, h⟩ := h
      refine ih h ?_
      have ha : '/' ≠ a := by
        rintro rfl
        simp [hexValue_slash] at hhigh
      have hb : '/' ≠ b := by
        rintro rfl
        simp [hexValue_slash] at hlow
      have htail : '/' ∈ tail := by simpa [ha, hb] using hslash
      split
      · next hhyphen =>
        cases tail with
        | nil => exact htail
        | cons c tail =>
          have hc : c = '-' := by simpa using hhyphen.2.2
          simpa [hc] using htail
      · exact htail

/-- No spelling of an identifier has a slash. -/
theorem Uuid.slash_notMem {text : String} {id : Uuid} (h : parse text = some id) :
    '/' ∉ text.toList := by
  intro hslash
  unfold parse at h
  split at h
  · next rest heq =>
    obtain ⟨⟨value, last⟩, hread, h⟩ := Option.bind_eq_some_iff.mp h
    have hmem : '/' ∈ rest := by simpa [heq] using hslash
    have hlast := mem_of_readBytes hread hmem
    dsimp only at h
    split at h
    · next hend => simp [hend] at hlast
    · cases h
  · obtain ⟨⟨value, last⟩, hread, h⟩ := Option.bind_eq_some_iff.mp h
    have hlast := mem_of_readBytes hread hslash
    dsimp only at h
    split at h
    · next hend => simp [hend] at hlast
    · cases h

/-- What stands before the first slash of a text is determined by it. -/
theorem append_slash_inj {a b c d : List Char} (ha : '/' ∉ a) (hb : '/' ∉ b)
    (h : a ++ '/' :: c = b ++ '/' :: d) : a = b := by
  induction a generalizing b with
  | nil =>
    cases b with
    | nil => rfl
    | cons y b =>
      obtain ⟨rfl, _⟩ := List.cons.inj h
      simp at hb
  | cons x a ih =>
    cases b with
    | nil =>
      obtain ⟨rfl, _⟩ := List.cons.inj h
      simp at ha
    | cons y b =>
      obtain ⟨rfl, hrest⟩ := List.cons.inj h
      simp only [List.mem_cons, not_or] at ha hb
      rw [ih ha.2 hb.2 hrest]

/-- The part of an object key after the workspace. -/
theorem workspace_key_inj {workspace workspace' : Uuid} {a b : String}
    (h : "workspaces/" ++ workspace.text ++ a = "workspaces/" ++ workspace'.text ++ b) :
    a.toList = b.toList := by
  have hchars := congrArg String.toList h
  simp only [String.toList_append] at hchars
  refine (List.append_inj hchars ?_).2
  simp [Uuid.text_length]

/-- The object keys of attempts name their jobs. -/
theorem attemptPath_job {workspace workspace' job' : Uuid} {jobID jobID' a b : String} {n n' : ℤ}
    (hjob : Uuid.parse jobID = some job) (hjob' : Uuid.parse jobID' = some job')
    (h : attemptPath workspace jobID n ++ a = attemptPath workspace' jobID' n' ++ b) : job = job' := by
  have hkey : "workspaces/" ++ workspace.text ++
        ("/jobs/" ++ jobID ++ ("/attempts/" ++ toString n ++ "/" ++ a)) =
      "workspaces/" ++ workspace'.text ++
        ("/jobs/" ++ jobID' ++ ("/attempts/" ++ toString n' ++ "/" ++ b)) := by
    simpa only [attemptPath, String.append_assoc] using h
  have htail := workspace_key_inj hkey
  simp only [String.toList_append, List.append_assoc] at htail
  have hids := append_slash_inj (Uuid.slash_notMem hjob) (Uuid.slash_notMem hjob')
    (List.append_cancel_left htail)
  rw [String.toList_inj.mp hids] at hjob
  exact Option.some.inj (hjob.symm.trans hjob')

/-- No object key of an attempt is one of a bundle. -/
theorem attemptPath_ne_bundle {workspace workspace' : Uuid} {jobID a b : String} {n : ℤ} :
    attemptPath workspace jobID n ++ a ≠ "workspaces/" ++ workspace'.text ++ "/runs/" ++ b := by
  intro h
  have hkey : "workspaces/" ++ workspace.text ++
        ("/jobs/" ++ (jobID ++ ("/attempts/" ++ toString n ++ "/" ++ a))) =
      "workspaces/" ++ workspace'.text ++ ("/runs/" ++ b) := by
    simpa only [attemptPath, String.append_assoc] using h
  have htail := workspace_key_inj hkey
  simp only [String.toList_append] at htail
  have hsecond := congrArg (fun chars : List Char => chars[1]?) htail
  simp at hsecond

end Keys

/-- The bundle of every run has its place under a workspace. -/
def BundlesPlaced (w : World) : Prop :=
  ∀ run row, w.rows.run run = some row → ∃ workspace : Uuid, ∃ rest,
    row.bundleObjectKey = "workspaces/" ++ workspace.text ++ "/runs/" ++ rest

/-- Every change of the world leaves the bundles in place: a run keeps its object key. -/
theorem BundlesPlaced.move (h : BundlesPlaced w) (hmove : (contract p s).Moves w w') :
    BundlesPlaced w' := by
  cases hmove with
  | tick n => exact h
  | draw => exact h
  | refuse σ error _ => exact h
  | commit σ reply _ _ hguar =>
    intro run row hrow
    have hstep := hguar.runs run
    rw [show (σ.after w).run run = some row from hrow] at hstep
    cases hold : w.rows.run run with
    | none =>
      rw [hold] at hstep
      cases hstep with
      | create _ hdeclared =>
        obtain ⟨rest, hkey⟩ := hdeclared.2.2
        exact ⟨row.workspace, rest, hkey⟩
    | some old =>
      rw [hold] at hstep
      have hkey : row.bundleObjectKey = old.bundleObjectKey := by cases hstep <;> rfl
      rw [hkey]
      exact h run old hold

/-- All work on a run is over and its artifacts have expired. -/
structure Closed (run : Uuid) (w : World) : Prop where
  deleted : ∃ found, w.rows.run run = some found ∧ found.state = .deleted
  isOver : ∀ job, w.rows.Over job run → w.rows.Terminal job
  expired : ∀ job, w.rows.Over job run → ∀ kind artifact,
    w.rows.artifact job kind = some artifact → artifact.retentionExpiresAt ≤ w.clock

/-- A run that is closed stays closed. -/
theorem Closed.move (hfree : s.CollisionFree) (hinv : Consistent p s w.rows) (h : Closed run w)
    (hmove : (contract p s).Moves w w') : Closed run w' := by
  obtain ⟨found, hfound, hdeleted⟩ := h.deleted
  cases hmove with
  | tick n =>
    refine ⟨h.deleted, h.isOver, fun job hover kind artifact hartifact => ?_⟩
    refine (h.expired job hover kind artifact hartifact).trans ?_
    simp
  | draw => exact ⟨h.deleted, h.isOver, h.expired⟩
  | refuse σ error _ => exact ⟨h.deleted, h.isOver, h.expired⟩
  | commit σ reply _ _ hguar =>
    have hkept : (σ.after w).run run = some found := (hguar.runs run).run_deleted hfound hdeleted
    have hbefore : ∀ job, (σ.after w).Over job run → w.rows.Over job run := by
      rintro job ⟨row, input, hrow, hinput, hrun⟩
      rcases hguar.job_cases hinv hrow hinput with ⟨old, hold, hinput', _⟩ | hcreated
      · exact ⟨old, input, hold, hinput', hrun⟩
      · -- a job is created over runs that are there
        obtain ⟨found', hfound', _, hstate⟩ := hcreated.runs hfree run hrun
        obtain rfl := Option.some.inj (hfound'.symm.trans hkept)
        rw [hdeleted] at hstate
        cases hoperation : input.operation <;> simp [hoperation, Operation.inputState] at hstate
    refine ⟨⟨found, hkept, hdeleted⟩, fun job hover => ?_, fun job hover kind artifact hartifact => ?_⟩
    · obtain ⟨row, hrow, hterminal⟩ := h.isOver job (hbefore job hover)
      exact ⟨row, hguar.terminal hrow hterminal, hterminal⟩
    · obtain ⟨row, hrow, hterminal⟩ := h.isOver job (hbefore job hover)
      rcases ((hguar.jobs job).terminal hrow hterminal).2 kind with hsame | ⟨old, _, hnew⟩
      · exact h.expired job (hbefore job hover) kind artifact (hsame.symm.trans hartifact)
      · obtain rfl := Option.some.inj (hnew.symm.trans hartifact)
        exact hguar.time

/-- Whether a finished call is a deletion of the run that has committed. -/
def deletes (run : Uuid) (f : Finished Call Err Reply) : Bool :=
  match f.call, f.result with
  | .deleteRun _ runID, .ok _ => Uuid.parse runID = some run
  | _, _ => false

/-- The test of a finished call finds the deletions of the run that committed. -/
theorem deletes_iff {f : Finished Call Err Reply} : deletes run f = true ↔
    ∃ workspace runID reply, f.call = .deleteRun workspace runID ∧ Uuid.parse runID = some run ∧
      f.result = .ok reply := by
  obtain ⟨call, now, ended, result⟩ := f
  constructor
  · intro h
    cases call <;> cases result <;> simp only [deletes, Bool.false_eq_true, decide_eq_true_eq] at h
    exact ⟨_, _, _, rfl, h, rfl⟩
  · rintro ⟨workspace, runID, reply, rfl, hparse, rfl⟩
    simpa [deletes] using hparse

/-- A deletion in the history has closed its run. -/
theorem closed_move (hfree : s.CollisionFree) (hinv : Consistent p s w.rows)
    (h : ∀ f ∈ w.history, deletes run f = true → Closed run w) (hmove : (contract p s).Moves w w') :
    ∀ f ∈ w'.history, deletes run f = true → Closed run w' := by
  intro f hf hdeletes
  have hold : f ∈ w.history → Closed run w' := fun hbefore =>
    (h f hbefore hdeletes).move hfree hinv hmove
  cases hmove with
  | tick n => exact hold hf
  | draw => exact hold hf
  | refuse σ error _ =>
    rcases List.mem_cons.mp hf with rfl | hbefore
    · obtain ⟨_, _, reply, _, _, hreply⟩ := deletes_iff.mp hdeletes
      cases hreply
    · exact hold hbefore
  | commit σ reply _ _ hguar =>
    rcases List.mem_cons.mp hf with rfl | hbefore
    · obtain ⟨workspace, runID, _, hcall, hparse, _⟩ := deletes_iff.mp hdeletes
      have heffect := hguar.effect
      rw [Effect, show σ.call = .deleteRun workspace runID from hcall] at heffect
      obtain ⟨run', found, hparse', hfound, hdeleted, hjobs⟩ := heffect
      obtain rfl := Option.some.inj (hparse'.symm.trans hparse)
      refine ⟨⟨found, hfound, hdeleted⟩, fun job hover => (hjobs hfree job hover).1,
        fun job hover kind artifact hartifact => ?_⟩
      exact ((hjobs hfree job hover).2 kind artifact hartifact).trans hguar.time
    · exact hold hbefore

/-- What nobody reads any more: no artifact of a job over the run is listed with its job,
found by its identifier, or retained as an object. -/
structure Unreadable (run : Uuid) (store : Store) (now : Timestamp) : Prop where
  listed : ∀ workspace job, store.Over job run → jobArtifacts now workspace job store = []
  found : ∀ workspace id place view, getArtifact now workspace id store = some (place, view) →
    ¬ store.Over place.1 run
  retained : ∀ job kind artifact, store.Over job run → store.artifact job kind = some artifact →
    ⟨artifact.objectKey, artifact.objectVersion⟩ ∉ retainedObjects now store

/-- Nothing that was derived from a run whose work is closed is read or retained. -/
theorem Closed.unreadable (h : Closed run w) (hbundles : BundlesPlaced w)
    (hresults : ∀ job, OneResult job w) (hinv : Consistent p s w.rows) (hnow : w.clock ≤ now) :
    Unreadable run w.rows now := by
  have hexpired : ∀ job, w.rows.Over job run → ∀ kind row, w.rows.artifact job kind = some row →
      row.retained now = false := fun job hover kind row hrow =>
    not_retained ((h.expired job hover kind row hrow).trans hnow)
  have hkey : ∀ job kind artifact, w.rows.artifact job kind = some artifact →
      ∃ workspace n jobID, Uuid.parse jobID = some job ∧
        artifact.objectKey = attemptPath workspace jobID n ++ kind.text := by
    intro job kind artifact hartifact
    obtain ⟨row, hrow, hstate⟩ := (hinv.jobs job).succeeded_of_artifact hartifact
    obtain ⟨n, jobID, _, hparse, _, hkinds⟩ := (hresults job).result row hrow hstate
    exact ⟨row.workspace, n, jobID, hparse, ((hkinds kind).2 artifact hartifact).2⟩
  refine ⟨fun workspace job hover => ?_, fun workspace id place view hfound hover => ?_,
    fun job kind artifact hover hartifact hmem => ?_⟩
  · refine List.filterMap_eq_nil_iff.mpr ?_
    rintro ⟨owner, kind⟩ _
    rw [Option.map_eq_none_iff, Option.filter_eq_none_iff]
    intro row hrow hqualifies
    simp only [Bool.and_eq_true, decide_eq_true_eq] at hqualifies
    obtain ⟨⟨rfl, _⟩, hretained⟩ := hqualifies
    simp [hexpired owner hover kind row hrow] at hretained
  · obtain ⟨⟨owner, kind⟩, _, hplaced⟩ := List.exists_of_findSome?_eq_some hfound
    obtain ⟨row, hfilter, hplace⟩ := Option.map_eq_some_iff.mp hplaced
    obtain ⟨hrow, hqualifies⟩ := Option.filter_eq_some_iff.mp hfilter
    obtain ⟨rfl, _⟩ := Prod.mk.inj hplace
    simp only [Bool.and_eq_true, decide_eq_true_eq] at hqualifies
    simp [hexpired owner hover kind row hrow] at hqualifies
  · obtain ⟨workspace, n, jobID, hparse, hartifactKey⟩ := hkey job kind artifact hartifact
    rcases List.mem_append.mp hmem with hbundle | hother
    · obtain ⟨id, row, hfound, _, _, heq, _⟩ := mem_retainedBundles.mp hbundle
      obtain ⟨workspace', rest, hplace⟩ := hbundles id row hfound
      exact attemptPath_ne_bundle (hartifactKey.symm.trans (heq.symm.trans hplace))
    · obtain ⟨owner, kind', row, hfound, hretained, hsame⟩ := mem_retainedArtifacts.mp hother
      obtain ⟨workspace', n', jobID', hparse', hrowKey⟩ := hkey owner kind' row hfound
      have heq : artifact.objectKey = row.objectKey := congrArg ObjectIdentity.key hsame
      -- the key names the job, so the retained artifact is of the same job
      obtain rfl := attemptPath_job hparse hparse' (hartifactKey.symm.trans (heq.trans hrowKey))
      simp [hexpired job hover kind' row hfound] at hretained

/-- From the moment a deletion of a run has committed, and whatever happens later, no job
over the run is unfinished and no artifact derived from it is read or retained. -/
theorem deletion_permanent (hfree : s.CollisionFree) {system : System}
    (h : System.Reachable (transaction s) Anything system) {f : Finished Call Err Reply}
    (hf : f ∈ system.world.history) (hdeletes : deletes run f = true) (events : List (Event Call))
    (system' : System) (hrun : System.execute (transaction s) events system = some system')
    (hnow : system'.world.clock ≤ now) :
    (∀ job, system'.world.rows.Over job run → system'.world.rows.Terminal job) ∧
      Unreadable run system'.world.rows now := by
  have hverified := verified unrestricted s
  have hreachable : System.Reachable (transaction s) Anything system' :=
    h.execute (System.AllowedRun.of_all (fun _ _ => trivial) _ _) hrun
  have hclosed : Closed run system.world :=
    hverified.invariant (anything_schedules s)
      (P := fun w => ∀ f ∈ w.history, deletes run f = true → Closed run w)
      (fun clock f hf => absurd hf (by simp [World.initial]))
      (fun w w' hinv hmove _ hbefore => closed_move hfree hinv hbefore hmove) h f hf hdeletes
  have hclosed' : Closed run system'.world :=
    hverified.persists (anything_schedules s)
      (fun w w' hinv hmove _ hbefore => hbefore.move hfree hinv hmove) h
      (System.AllowedRun.of_all (fun _ _ => trivial) _ _) hrun hclosed
  have hbundles : BundlesPlaced system'.world := by
    refine hverified.invariant (anything_schedules s) (fun clock run row hrow => ?_)
      (fun w w' _ hmove _ hbefore => hbefore.move hmove) hreachable
    exact absurd hrow (by simp [World.rows, World.initial, Store.run])
  exact ⟨hclosed'.isOver, hclosed'.unreadable hbundles (fun job => oneResult_of_reachable hreachable job)
    (sound_of_reachable hreachable).inv hnow⟩

/-- The hashes of the example have no collisions. -/
theorem demo_collisionFree : demo.CollisionFree := fun _ _ h => h

/-- In the example a run is deleted that a validation and a later job are over. -/
theorem demoDeletion_deleted :
    (((World.initial 0 : World).serve (transaction demo) (demoValidation ++
      [(.completeAttempt (newID 3).text 1 "token" demoCompletion 60, 0),
        (.createJob 7 "key" ⟨"otlp", [(newID 1).text], none⟩ 70 71, 0),
        (.deleteRun 7 (newID 1).text, 1)])).any fun w =>
      w.history.any (deletes (newID 1)) &&
        (w.rows.artifact (newID 3) .validationJSON).isSome) = true := by
  decide +kernel

/-- A run in which the bundle of a validated run is deleted before its analysis. -/
theorem deletion_permanent_deleted : ∃ system : System,
    (∃ f ∈ system.world.history, deletes (newID 1) f = true) ∧
    system.world.rows.artifact (newID 3) .validationJSON ≠ none ∧
    (∀ job, system.world.rows.Over job (newID 1) → system.world.rows.Terminal job) ∧
    Unreadable (newID 1) system.world.rows system.world.clock := by
  obtain ⟨w, hrun, hany⟩ := (Option.any_eq_true _ _).mp demoDeletion_deleted
  rw [Bool.and_eq_true] at hany
  obtain ⟨f, hf, hdeletes⟩ := List.any_eq_true.mp hany.1
  have hserial : Serial (transaction demo) w := Serial.serve (.initial 0) hrun
  have hreachable : System.Reachable (transaction demo) Anything ⟨w, ∅⟩ :=
    hserial.reachable fun _ _ _ => trivial
  obtain ⟨hover, hunreadable⟩ :=
    deletion_permanent demo_collisionFree hreachable hf hdeletes [] ⟨w, ∅⟩ rfl le_rfl
  exact ⟨⟨w, ∅⟩, ⟨f, hf, hdeletes⟩, Option.isSome_iff_ne_none.mp hany.2, hover, hunreadable⟩

end Tracewake.Hosted
