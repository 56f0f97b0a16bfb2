import Tracewake.Artifacts.Cleanup
import Tracewake.Hosted.JobInvariant
import Tracewake.ReadCommitted.Serial

/-!
# Objects that runs and artifacts refer to

The maintenance loop lists the objects that the database retains and then cleans the
artifact store of what is not in the list and is older than a day. Uploads, requests and
other passes go on meanwhile. An object that is referred to stays in the store as long as
no pass that does not list it may still remove it when the reference is committed.
-/

namespace Tracewake.Hosted

open ReadCommitted
open Artifacts (Bytes Identity Place File Filesystem)

/-- A day in nanoseconds. -/
def orphanAge : ℤ := 24 * 60 * 60 * 1000000000

/-- The identity of an object in the store. -/
def ObjectIdentity.stored (identity : ObjectIdentity) : Identity :=
  ⟨Artifacts.bytes identity.key, Artifacts.bytes identity.version⟩

/-- One pass of the maintenance loop: the objects it keeps, the age from which it removes
others, and the place whose file it is about to remove. -/
structure Pass where
  keep : List Identity
  before : Option ℤ := none
  removing : Option Place := none

/-- The database, the artifact store and the passes that are under way. -/
structure Deployment where
  system : System
  store : Filesystem
  passes : ℕ → Option Pass

/-- What can happen next. -/
inductive Activity
  /-- The database goes on with a call. -/
  | database (event : Event Call)
  /-- A file is uploaded. -/
  | put (key digest : Bytes) (size : ℤ) (input : Bytes)
  /-- Time passes for the processes. -/
  | tick (elapsed : ℕ)
  /-- A pass reads `RetainedObjects`. -/
  | retain (pass : ℕ)
  /-- The pass begins `Cleanup` of what is older than a day. -/
  | cleanup (pass : ℕ)
  /-- The walk reaches a place. -/
  | inspect (pass : ℕ) (place : Place)
  /-- The file is removed that was found to be an orphan. -/
  | remove (pass : ℕ)
  /-- The pass ends or is given up. -/
  | finish (pass : ℕ)

namespace Deployment

/-- The objects that the database retains now. -/
def retained (d : Deployment) : List Identity :=
  (retainedObjects d.system.world.clock d.system.world.rows).map ObjectIdentity.stored

/-- The deployment in which a pass has come further. -/
def advance (d : Deployment) (n : ℕ) (pass : Option Pass) : Deployment :=
  { d with passes := Function.update d.passes n pass }

/-- One activity. -/
def step (s : Service) (d : Deployment) : Activity → Option Deployment
  | .database event =>
    (System.step (transaction s) event d.system).map fun system => { d with system }
  | .put key digest size input =>
    (d.store.put key digest size input).map fun (_, store) => { d with store }
  | .tick elapsed => some { d with store := { d.store with now := d.store.now + elapsed } }
  | .retain n =>
    match d.passes n with
    | none => some (d.advance n (some { keep := d.retained }))
    | some _ => none
  | .cleanup n =>
    match d.passes n with
    | some ⟨keep, none, _⟩ =>
      some (d.advance n (some { keep, before := some (d.store.now - orphanAge) }))
    | _ => none
  | .inspect n place =>
    match d.passes n with
    | some ⟨keep, some before, none⟩ =>
      if d.store.inspect keep before place then
        some (d.advance n (some { keep, before := some before, removing := some place }))
      else some d
    | _ => none
  | .remove n =>
    match d.passes n with
    | some ⟨keep, before, some place⟩ =>
      some ({ d with store := d.store.remove place }.advance n (some { keep, before }))
    | _ => none
  | .finish n => some (d.advance n none)

/-- Run a list of activities from the left. -/
def execute (s : Service) : List Activity → Deployment → Option Deployment
  | [], d => some d
  | activity :: rest, d => (d.step s activity).bind (execute s rest)

/-- The deployments that activities allowed in their state lead to, from an empty database
and any store. -/
inductive Reachable (s : Service) (allowed : Deployment → Activity → Prop) : Deployment → Prop
  | initial (clock : ℤ) (store : Filesystem) :
      Reachable s allowed ⟨⟨World.initial clock, ∅⟩, store, fun _ => none⟩
  | step {d d' : Deployment} {activity : Activity} : Reachable s allowed d →
      allowed d activity → d.step s activity = some d' → Reachable s allowed d'

/-- A pass does not remove the file at a place: it keeps the file or finds it young, and it
is not about to remove it. -/
def Spares (d : Deployment) (pass : Pass) (place : Place) (file : File) : Prop :=
  (d.store.keeps pass.keep place file = true ∨ ∀ before ∈ pass.before, before < file.modified) ∧
    pass.removing ≠ some place

/-- The object is in a file that all passes under way spare. -/
def Safe (d : Deployment) (identity : Identity) : Prop :=
  ∃ place file, d.store.disk.file place = some file ∧ d.store.identity place file = identity ∧
    ∀ n pass, d.passes n = some pass → d.Spares pass place file

/-- Passes under way look for files that were written before now. -/
def Old (d : Deployment) : Prop :=
  ∀ n pass, d.passes n = some pass → ∀ before ∈ pass.before, before < d.store.now

/-- A pass with a list of what to keep that began now would remove no file of the object. -/
def Lasting (d : Deployment) (keep : List Identity) (identity : Identity) : Prop :=
  ∀ place file, d.store.disk.file place = some file → d.store.identity place file = identity →
    d.store.keeps keep place file = true ∨ d.store.now - orphanAge < file.modified

/-- A step of the database refers to no new object unless it is safe. A pass that begins to
remove files finds the files young that are retained by now and that it does not keep. -/
def Calm (s : Service) (d : Deployment) : Activity → Prop
  | .database event => ∀ d', d.step s (.database event) = some d' →
      ∀ identity ∈ d'.retained, identity ∉ d.retained → d.Safe identity
  | .cleanup n => ∀ pass, d.passes n = some pass → ∀ identity ∈ d.retained,
      ∀ place file, d.store.disk.file place = some file → d.store.identity place file = identity →
        d.store.keeps pass.keep place file = true ∨ d.store.now - orphanAge < file.modified
  | _ => True

/-- What calm activities keep: retained objects are safe, and passes look for files that are
older than a day. -/
structure Invariant (d : Deployment) : Prop where
  safe : ∀ identity ∈ d.retained, d.Safe identity
  old : ∀ n pass, d.passes n = some pass → ∀ before ∈ pass.before, before < d.store.now

variable {s : Service} {d d' : Deployment}

/-- An object that is safe is in the store. -/
theorem Safe.holds {identity : Identity} (h : d.Safe identity) :
    d.store.holds identity = true := by
  obtain ⟨place, file, hfile, rfl, -⟩ := h
  exact Filesystem.holds_of_file hfile

/-- What is safe stays safe when nothing of the store changes and passes only get weaker. -/
theorem Safe.mono {identity : Identity} (h : d.Safe identity) (hstore : d'.store = d.store)
    (hpasses : ∀ place file, d.store.disk.file place = some file →
      d.store.identity place file = identity →
      (∀ n pass, d.passes n = some pass → d.Spares pass place file) →
      ∀ n pass, d'.passes n = some pass → d'.Spares pass place file) : d'.Safe identity := by
  obtain ⟨place, file, hfile, hidentity, hspares⟩ := h
  refine ⟨place, file, ?_, ?_, hpasses place file hfile hidentity hspares⟩
  · rw [hstore]
    exact hfile
  · rw [hstore]
    exact hidentity

/-- The state of one pass is replaced. -/
theorem advance_passes (d : Deployment) (n m : ℕ) (pass : Option Pass) :
    (d.advance n pass).passes m = if m = n then pass else d.passes m :=
  Function.update_apply d.passes n pass m

/-- A pass goes on: an object stays safe if the pass still spares it. -/
theorem Safe.advance {identity : Identity} (h : d.Safe identity) {n : ℕ} {new : Pass}
    (hspares : ∀ place file, d.store.disk.file place = some file →
      d.store.identity place file = identity →
      (∀ pass, d.passes n = some pass → d.Spares pass place file) → d.Spares new place file) :
    (d.advance n (some new)).Safe identity := by
  refine h.mono rfl fun place file hfile hsame hall m pass hpass => ?_
  rw [advance_passes] at hpass
  change d.Spares pass place file
  split at hpass
  · obtain rfl := Option.some.inj hpass
    exact hspares place file hfile hsame (hall n)
  · exact hall m pass hpass

/-- An upload leaves safe objects safe. The file that it writes is younger than any pass
looks for. -/
theorem Safe.put {identity : Identity} (h : d.Safe identity) (hold : d.Old)
    {key digest input : Bytes} {size : ℤ}
    (hstep : d.step s (.put key digest size input) = some d') : d'.Safe identity := by
  obtain ⟨⟨object, store⟩, hput, rfl⟩ := Option.map_eq_some_iff.mp hstep
  obtain ⟨hhashing, hnow, data, hnew, hother⟩ := Filesystem.put_store hput
  have hidentity : ∀ place file, store.identity place file = d.store.identity place file := by
    intro place file
    cases place with
    | version identity => rfl
    | legacy key => simp only [Filesystem.identity, hhashing]
  have hkeeps : ∀ keep place file, store.keeps keep place file = d.store.keeps keep place file := by
    intro keep place file
    cases place with
    | version identity => rfl
    | legacy key => simp only [Filesystem.keeps, hidentity]
  obtain ⟨place, file, hfile, hsame, hall⟩ := h
  by_cases hplace : place = .version ⟨key, digest⟩
  · subst hplace
    -- the new file is younger than any pass looks for
    refine ⟨_, _, hnew, hsame, fun n pass hpass => ⟨Or.inr fun before hbefore => ?_, ?_⟩⟩
    · exact hold n pass hpass before hbefore
    · exact (hall n pass hpass).2
  · refine ⟨place, file, (hother place hplace).trans hfile, (hidentity place file).trans hsame,
      fun n pass hpass => ?_⟩
    obtain ⟨hspared, hremoving⟩ := hall n pass hpass
    exact ⟨hspared.imp_left fun hkept => (hkeeps _ _ _).trans hkept, hremoving⟩

/-- The walk leaves safe objects safe: a file that a pass spares is not found to be an
orphan. -/
theorem Safe.inspect {identity : Identity} (h : d.Safe identity) {n : ℕ} {place : Place}
    (hstep : d.step s (.inspect n place) = some d') : d'.Safe identity := by
  simp only [step] at hstep
  split at hstep
  · next keep before hpass =>
    split at hstep
    · next horphan =>
      obtain rfl := Option.some.inj hstep
      refine h.advance fun place' file hfile _ hall => ?_
      obtain ⟨hspared, -⟩ := hall _ hpass
      refine ⟨hspared, fun hplace => ?_⟩
      obtain rfl := Option.some.inj hplace
      have hnot := Filesystem.inspect_of_file hfile (hspared.imp_right fun hyoung => hyoung _ rfl)
      exact absurd horphan (by simp [hnot])
    · obtain rfl := Option.some.inj hstep
      exact h
  · cases hstep

/-- A removal leaves safe objects safe: the file it takes is not the one that a pass
spares. -/
theorem Safe.remove {identity : Identity} (h : d.Safe identity) {n : ℕ}
    (hstep : d.step s (.remove n) = some d') : d'.Safe identity := by
  simp only [step] at hstep
  split at hstep
  · next keep before place hpass =>
    obtain rfl := Option.some.inj hstep
    obtain ⟨other, file, hfile, hsame, hall⟩ := h
    have hne : other ≠ place := by
      rintro rfl
      exact (hall n _ hpass).2 rfl
    have hremoved : ({ d with store := d.store.remove place } : Deployment).Safe identity :=
      ⟨other, file, (Artifacts.Disk.file_remove _ hne).trans hfile, hsame, hall⟩
    exact hremoved.advance fun _ _ _ _ hall => ⟨(hall _ hpass).1, by simp⟩
  · cases hstep

/-- An object that is safe stays safe whatever happens next, if a pass that begins to remove
files keeps the object or finds its files young. -/
theorem Safe.step {identity : Identity} (h : d.Safe identity) (hold : d.Old) {activity : Activity}
    (hcleanup : ∀ n pass, activity = .cleanup n → d.passes n = some pass →
      d.Lasting pass.keep identity)
    (hstep : d.step s activity = some d') : d'.Safe identity := by
  cases activity with
  | database event =>
    obtain ⟨system, -, rfl⟩ := Option.map_eq_some_iff.mp hstep
    exact h.mono rfl fun _ _ _ _ hall => hall
  | put key digest size input => exact h.put hold hstep
  | tick elapsed =>
    obtain rfl := Option.some.inj hstep
    exact h
  | retain n =>
    simp only [Deployment.step] at hstep
    split at hstep
    · obtain rfl := Option.some.inj hstep
      refine h.advance fun place file _ _ _ => ⟨.inr fun before hbefore => ?_, by simp⟩
      cases hbefore
    · cases hstep
  | cleanup n =>
    simp only [Deployment.step] at hstep
    split at hstep
    · next keep removing hpass =>
      obtain rfl := Option.some.inj hstep
      refine h.advance fun place file hfile hsame _ => ⟨?_, by simp⟩
      refine (hcleanup n _ rfl hpass place file hfile hsame).imp_right fun hyoung before hbefore => ?_
      obtain rfl := Option.some.inj hbefore
      exact hyoung
    · cases hstep
  | inspect n place => exact h.inspect hstep
  | remove n => exact h.remove hstep
  | finish n =>
    obtain rfl := Option.some.inj hstep
    refine h.mono rfl fun place file _ _ hall m pass hpass => ?_
    rw [advance_passes] at hpass
    split at hpass
    · cases hpass
    · exact hall m pass hpass

/-- A pass goes on: passes look for old files if this one does. -/
theorem Old.advance (h : d.Old) {n : ℕ} {new : Option Pass}
    (hnew : ∀ pass ∈ new, ∀ before ∈ pass.before, before < d.store.now) :
    (d.advance n new).Old := by
  intro m pass hpass before hbefore
  rw [advance_passes] at hpass
  change before < d.store.now
  split at hpass
  · exact hnew pass hpass before hbefore
  · exact h m pass hpass before hbefore

/-- Passes go on looking for old files, whatever happens next. -/
theorem Old.step (h : d.Old) {activity : Activity} (hstep : d.step s activity = some d') :
    d'.Old := by
  cases activity with
  | database event =>
    obtain ⟨system, -, rfl⟩ := Option.map_eq_some_iff.mp hstep
    exact h
  | put key digest size input =>
    obtain ⟨⟨object, store⟩, hput, rfl⟩ := Option.map_eq_some_iff.mp hstep
    obtain ⟨_, hnow, _⟩ := Filesystem.put_store hput
    intro n pass hpass before hbefore
    have hbound := h n pass hpass before hbefore
    change before < store.now
    omega
  | tick elapsed =>
    obtain rfl := Option.some.inj hstep
    intro n pass hpass before hbefore
    have hbound := h n pass hpass before hbefore
    change before < d.store.now + elapsed
    omega
  | retain n =>
    simp only [Deployment.step] at hstep
    split at hstep
    · obtain rfl := Option.some.inj hstep
      refine h.advance fun pass hpass before hbefore => ?_
      obtain rfl := Option.some.inj hpass
      cases hbefore
    · cases hstep
  | cleanup n =>
    simp only [Deployment.step] at hstep
    split at hstep
    · obtain rfl := Option.some.inj hstep
      refine h.advance fun pass hpass before hbefore => ?_
      obtain rfl := Option.some.inj hpass
      obtain rfl := Option.some.inj hbefore
      unfold orphanAge
      omega
    · cases hstep
  | inspect n place =>
    simp only [Deployment.step] at hstep
    split at hstep
    · next keep before hpass =>
      split at hstep
      · obtain rfl := Option.some.inj hstep
        refine h.advance fun pass hsame other hother => ?_
        obtain rfl := Option.some.inj hsame
        exact h n _ hpass other hother
      · obtain rfl := Option.some.inj hstep
        exact h
    · cases hstep
  | remove n =>
    simp only [Deployment.step] at hstep
    split at hstep
    · next keep before place hpass =>
      obtain rfl := Option.some.inj hstep
      have hremoved : ({ d with store := d.store.remove place } : Deployment).Old := h
      refine hremoved.advance fun pass hsame other hother => ?_
      obtain rfl := Option.some.inj hsame
      exact h n _ hpass other hother
    · cases hstep
  | finish n =>
    obtain rfl := Option.some.inj hstep
    exact h.advance fun pass hpass => by cases hpass

/-- Only its own events change the database. -/
theorem system_of_step {activity : Activity} (hstep : d.step s activity = some d')
    (hactivity : ∀ event, activity ≠ .database event) : d'.system = d.system := by
  cases activity with
  | database event => exact absurd rfl (hactivity event)
  | put key digest size input =>
    obtain ⟨⟨object, store⟩, hput, rfl⟩ := Option.map_eq_some_iff.mp hstep
    rfl
  | tick elapsed =>
    obtain rfl := Option.some.inj hstep
    rfl
  | retain n =>
    simp only [step] at hstep
    split at hstep
    · obtain rfl := Option.some.inj hstep
      rfl
    · cases hstep
  | cleanup n =>
    simp only [step] at hstep
    split at hstep
    · obtain rfl := Option.some.inj hstep
      rfl
    · cases hstep
  | inspect n place =>
    simp only [step] at hstep
    split at hstep
    · split at hstep
      · obtain rfl := Option.some.inj hstep
        rfl
      · obtain rfl := Option.some.inj hstep
        rfl
    · cases hstep
  | remove n =>
    simp only [step] at hstep
    split at hstep
    · obtain rfl := Option.some.inj hstep
      rfl
    · cases hstep
  | finish n =>
    obtain rfl := Option.some.inj hstep
    rfl

/-- Only events of the database change what it retains. -/
theorem retained_of_step {activity : Activity} (hstep : d.step s activity = some d')
    (hactivity : ∀ event, activity ≠ .database event) : d'.retained = d.retained := by
  unfold retained
  rw [system_of_step hstep hactivity]

/-- Calm activities keep the invariant. What the database newly refers to is safe by the
condition, and what was retained before stays safe. -/
theorem Invariant.step (h : d.Invariant) {activity : Activity} (hcalm : d.Calm s activity)
    (hstep : d.step s activity = some d') : d'.Invariant := by
  have hsafe : ∀ identity ∈ d'.retained, d.Safe identity := by
    intro identity hidentity
    by_cases hbefore : identity ∈ d.retained
    · exact h.safe identity hbefore
    · cases activity with
      | database event => exact hcalm d' hstep identity hidentity hbefore
      | _ =>
        rw [retained_of_step hstep (by simp)] at hidentity
        exact absurd hidentity hbefore
  refine ⟨fun identity hidentity => ?_, Old.step h.old hstep⟩
  refine (hsafe identity hidentity).step h.old (fun n pass hcleanup hpass => ?_) hstep
  subst hcleanup
  rw [retained_of_step hstep (by simp)] at hidentity
  exact hcalm pass hpass identity hidentity

/-- In every run of calm activities the invariant holds, by induction on the run. -/
theorem Reachable.invariant (h : Reachable s (Calm s) d) : d.Invariant := by
  induction h with
  | initial clock store =>
    refine ⟨fun identity hretained => ?_, fun n pass hpass => by cases hpass⟩
    simp [retained, retainedObjects, retainedBundles, retainedArtifacts, World.rows, World.initial,
      Store.runs, Store.artifacts, Store.scan] at hretained
  | step _ hcalm hstep ih => exact ih.step hcalm hstep

/-- The database of a deployment that is reached is one that its own events lead to. -/
theorem Reachable.system {allowed : Deployment → Activity → Prop} (h : Reachable s allowed d) :
    System.Reachable (transaction s) Anything d.system := by
  induction h with
  | initial clock store => exact .initial clock
  | @step d d' activity _ _ hstep ih =>
    by_cases hactivity : ∃ event, activity = .database event
    · obtain ⟨event, rfl⟩ := hactivity
      obtain ⟨system, hsystem, rfl⟩ := Option.map_eq_some_iff.mp hstep
      exact ih.step trivial hsystem
    · rw [system_of_step hstep fun event hevent => hactivity ⟨event, hevent⟩]
      exact ih

end Deployment

/-- In every run of calm activities the objects that runs and artifacts refer to are in the
artifact store. -/
theorem live_objects_present {s : Service} {d : Deployment}
    (h : Deployment.Reachable s (Deployment.Calm s) d) :
    ∀ identity ∈ d.retained, d.store.holds identity = true := by
  intro identity hretained
  exact (h.invariant.safe identity hretained).holds

/-! A bundle is uploaded and its upload is completed, by calls that run alone. -/

/-- Activities that are allowed wherever `P` holds, and that keep `P`, lead from a reachable
deployment to a reachable one. -/
theorem Deployment.Reachable.execute {s : Service} {allowed : Deployment → Activity → Prop}
    {P : Deployment → Prop} {activities : List Activity}
    (hallowed : ∀ d, P d → ∀ activity ∈ activities, allowed d activity)
    (hkept : ∀ d, P d → ∀ activity ∈ activities, ∀ d', d.step s activity = some d' → P d')
    {d d' : Deployment} (h : Deployment.Reachable s allowed d) (hd : P d)
    (hrun : Deployment.execute s activities d = some d') :
    Deployment.Reachable s allowed d' ∧ P d' := by
  induction activities generalizing d with
  | nil =>
    obtain rfl : d = d' := Option.some.inj hrun
    exact ⟨h, hd⟩
  | cons activity rest ih =>
    obtain ⟨d₁, hstep, hrest⟩ := Option.bind_eq_some_iff.mp hrun
    exact ih (fun d hd other hother => hallowed d hd other (List.mem_cons_of_mem _ hother))
      (fun d hd other hother => hkept d hd other (List.mem_cons_of_mem _ hother))
      (h.step (hallowed d hd activity List.mem_cons_self) hstep)
      (hkept d hd activity List.mem_cons_self d₁ hstep) hrest

/-- The object of the bundle. -/
def demoBundle : Identity :=
  ObjectIdentity.stored ⟨"workspaces/" ++ (7 : Uuid).text ++ "/runs/" ++ (newID 1).text ++
    "/bundle.tar", demoDigest⟩

/-- A call that runs alone. -/
def demoCall (call : Call) (statements : ℕ) : List Activity :=
  .database (.start 0 call) :: List.replicate statements (.database (.run 0))

def demoCreate : List Activity := demoCall (.createUpload 7 demoDigest 1 1) 4

def demoComplete : List Activity :=
  demoCall (.completeUpload 7 (newID 1).text demoDigest demoDigest 1 2 3) 9

/-- A store with some files and one digest. -/
def demoObjects (objects : Identity → Option File) : Filesystem where
  hashing := ⟨fun _ => List.replicate 32 0xaa, fun _ _ => []⟩
  signing := []
  now := 0
  disk := ⟨objects, fun _ => none⟩

/-- An empty database over a store. -/
def demoDeployment (objects : Identity → Option File) : Deployment :=
  ⟨⟨World.initial 0, ∅⟩, demoObjects objects, fun _ => none⟩

/-- A store in which every object has just been written. -/
def demoFull : Deployment := demoDeployment fun _ => some ⟨[], 0⟩

/-- After the upload is completed the bundle is retained. -/
theorem demoFull_retained :
    ((Deployment.execute demo (demoCreate ++ demoComplete) demoFull).any fun d =>
      d.retained.contains demoBundle) = true := by
  decide +kernel

/-- A call that runs alone consists of steps of the database. -/
theorem mem_demoCall {call : Call} {statements : ℕ} {activity : Activity}
    (h : activity ∈ demoCall call statements) : ∃ event, activity = .database event := by
  rcases List.mem_cons.mp h with rfl | hrun
  · exact ⟨_, rfl⟩
  · exact ⟨_, List.eq_of_mem_replicate hrun⟩

/-- A run in which the upload of a bundle is completed before a pass looks for orphans. -/
theorem live_objects_present_kept : ∃ d : Deployment,
    (∃ pass before, d.passes 0 = some pass ∧ pass.before = some before) ∧
      demoBundle ∈ d.retained ∧ d.store.holds demoBundle = true := by
  obtain ⟨d, hrun, hany⟩ := (Option.any_eq_true _ _).mp demoFull_retained
  have hactivity : ∀ activity ∈ demoCreate ++ demoComplete,
      ∃ event, activity = .database event := by
    intro activity hmem
    rcases List.mem_append.mp hmem with hmem | hmem
    · exact mem_demoCall hmem
    · exact mem_demoCall hmem
  let quiet (d : Deployment) : Prop := d.store = demoFull.store ∧ d.passes = fun _ => none
  have hcalm : ∀ d, quiet d → ∀ activity ∈ demoCreate ++ demoComplete, d.Calm demo activity := by
    rintro d ⟨hstore, hpasses⟩ activity hmem
    obtain ⟨event, rfl⟩ := hactivity activity hmem
    intro d' _ identity _ _
    refine ⟨.version identity, ⟨[], 0⟩, by rw [hstore]; rfl, rfl, fun n pass hpass => ?_⟩
    rw [hpasses] at hpass
    cases hpass
  have hkept : ∀ d, quiet d → ∀ activity ∈ demoCreate ++ demoComplete, ∀ d',
      d.step demo activity = some d' → quiet d' := by
    intro d hd activity hmem d' hstep
    obtain ⟨event, rfl⟩ := hactivity activity hmem
    obtain ⟨system, -, rfl⟩ := Option.map_eq_some_iff.mp hstep
    exact hd
  obtain ⟨hd, hstore, hpasses⟩ := Deployment.Reachable.execute hcalm hkept
    (.initial 0 demoFull.store) ⟨rfl, rfl⟩ hrun
  have hretain : d.step demo (.retain 0) = some (d.advance 0 (some { keep := d.retained })) := by
    simp [Deployment.step, hpasses]
  let cleaning : Pass := { keep := d.retained, before := some (d.store.now - orphanAge) }
  let listed := d.advance 0 (some { keep := d.retained })
  have hcleanup : listed.step demo (.cleanup 0) = some (listed.advance 0 (some cleaning)) := by
    simp [Deployment.step, Deployment.advance, cleaning, listed]
  have hyoung : listed.Calm demo (.cleanup 0) := by
    intro pass _ identity _ place file hfile _
    right
    change d.store.now - orphanAge < file.modified
    change d.store.disk.file place = some file at hfile
    rw [hstore] at hfile ⊢
    cases place with
    | version identity =>
      obtain rfl := Option.some.inj hfile
      decide
    | legacy key => cases hfile
  have hlisting : d.Calm demo (.retain 0) := trivial
  have hend := (hd.step hlisting hretain).step hyoung hcleanup
  have hretained : demoBundle ∈ d.retained := List.contains_iff_mem.mp hany
  have hpass : (listed.advance 0 (some cleaning)).passes 0 = some cleaning := by
    simp [Deployment.advance]
  exact ⟨listed.advance 0 (some cleaning), ⟨cleaning, _, hpass, rfl⟩, hretained,
    live_objects_present hend demoBundle hretained⟩

/-- A bundle is uploaded, and a day later a pass lists the objects to keep. -/
def demoOld : List Activity :=
  demoCreate ++ [.put demoBundle.key demoBundle.version 1 [0], .tick 90000000000000, .retain 0,
    .cleanup 0]

/-- The upload is completed, and the pass reaches the file. -/
def demoLate : List Activity :=
  demoComplete ++ [.inspect 0 (.version demoBundle), .remove 0]

/-- With a pass under way the bundle is checked, retained and lost. -/
theorem demoOld_removed :
    ((Deployment.execute demo demoOld (demoDeployment fun _ => none)).any fun checked =>
      (checked.store.commit demoBundle.key demoBundle.version demoBundle.version 1).isSome &&
        (Deployment.execute demo demoLate checked).any fun lost =>
          lost.retained.contains demoBundle && !lost.store.holds demoBundle) = true := by
  decide +kernel

/-- An object is checked while a pass is under way that does not list it, and it is lost
although the upload is completed. -/
theorem live_object_removed : ∃ checked lost : Deployment,
    Deployment.Reachable demo (fun _ _ => True) checked ∧
    (checked.store.commit demoBundle.key demoBundle.version demoBundle.version 1).isSome = true ∧
    Deployment.execute demo demoLate checked = some lost ∧
    Deployment.Reachable demo (fun _ _ => True) lost ∧
    ∃ identity ∈ lost.retained, lost.store.holds identity = false := by
  obtain ⟨checked, hchecked, hany⟩ := (Option.any_eq_true _ _).mp demoOld_removed
  rw [Bool.and_eq_true] at hany
  obtain ⟨hcommit, hlate⟩ := hany
  obtain ⟨lost, hlost, hmissing⟩ := (Option.any_eq_true _ _).mp hlate
  rw [Bool.and_eq_true, Bool.not_eq_true'] at hmissing
  have hreachable : ∀ {activities : List Activity} {d d' : Deployment},
      Deployment.Reachable demo (fun _ _ => True) d →
      Deployment.execute demo activities d = some d' →
      Deployment.Reachable demo (fun _ _ => True) d' := fun hd hrun =>
    (Deployment.Reachable.execute (P := fun _ => True) (fun _ _ _ _ => trivial)
      (fun _ _ _ _ _ _ => trivial) hd trivial hrun).1
  have hstart := hreachable (.initial 0 (demoObjects fun _ => none)) hchecked
  exact ⟨checked, lost, hstart, hcommit, hlost, hreachable hstart hlost, demoBundle,
    List.contains_iff_mem.mp hmissing.1, hmissing.2⟩

end Tracewake.Hosted
