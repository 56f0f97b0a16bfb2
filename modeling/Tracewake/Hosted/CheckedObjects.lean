import Tracewake.Hosted.LiveObjects

/-!
# Objects are checked before rows refer to them

The handlers of the API have the artifact store check the objects of a request before they
make the call whose transaction refers to these objects. With such handlers a run has to
restrict the passes of the maintenance loop only: a pass under way spares an object that is
checked, and a pass that begins spares the objects of calls that have not ended. The runs
are calm then, so that the objects that runs and artifacts refer to are in the store.
-/

namespace Tracewake.Hosted

open ReadCommitted
open Artifacts (Identity Filesystem)

/-- An object as a request declares it. -/
structure Declaration where
  object : ObjectIdentity
  digest : String
  size : ℤ

/-- `Commit` of a declared object. -/
def Declaration.commit (declaration : Declaration) (store : Filesystem) :
    Option Artifacts.Object :=
  store.commit declaration.object.stored.key declaration.object.stored.version
    (Artifacts.bytes declaration.digest) declaration.size

/-- The object of a result. -/
def Completion.declaration (result : Completion) : Declaration :=
  ⟨⟨result.objectKey, result.objectVersion⟩, result.digest, result.size⟩

/-- The object of a companion. -/
def CompanionArtifact.declaration (companion : CompanionArtifact) : Declaration :=
  ⟨⟨companion.objectKey, companion.objectVersion⟩, companion.digest, companion.size⟩

/-- The objects that a handler has checked before it makes a call, in their order, and `none`
where it makes no call. The version that it passes on is the one it has been told, since
`Commit` accepts no other. A handler may refuse more requests than these. The handler of a
browser uploads its object by itself, and what it has put passes the check. -/
def Call.declarations (store : Store) : Call → Option (List Declaration)
  | .completeUpload workspace runID version digest size _ _ =>
    (uploadFor workspace runID store).bind fun upload =>
      if upload.digest = digest && upload.size = size && upload.state = some .pending then
        some [⟨⟨upload.key, version⟩, upload.digest, upload.size⟩]
      else none
  | .completeAttempt _ attempt _ result _ =>
    if result.validWorkerRequest attempt then
      some (result.declaration :: result.companions.map CompanionArtifact.declaration)
    else none
  | _ => some []

/-- The objects that rows refer to once a call has committed. -/
def Call.objects (store : Store) : Call → Option (List ObjectIdentity)
  | .completeUpload _ runID version _ _ _ _ =>
    ((Uuid.parse runID).bind store.run).map fun row => [⟨row.bundleObjectKey, version⟩]
  | .completeAttempt _ _ _ result _ =>
    some ((result.declaration :: result.companions.map CompanionArtifact.declaration).map (·.object))
  | _ => some []

/-- A handler on the way to its call: the objects that have been checked and the others. -/
structure Handler where
  call : Call
  checked : List Declaration
  unchecked : List Declaration

/-- A deployment with the handlers of its requests, by the number of the session in which
their call is served. -/
structure Serving where
  deployment : Deployment
  handlers : ℕ → Option Handler

/-- Whether a call begins. -/
def Activity.begins : Activity → Bool
  | .database (.start _ _) => true
  | _ => false

/-- What can happen next where requests are handled. -/
inductive Action
  /-- A request for a call arrives. -/
  | receive (session : ℕ) (call : Call)
  /-- The handler has its next object checked. -/
  | check (session : ℕ)
  /-- The handler makes its call. -/
  | call (session : ℕ)
  /-- Anything else happens to the deployment. -/
  | other (activity : Activity)

namespace Serving

/-- The deployment goes on. The handler of a session that has ended is done. -/
def follow (v : Serving) (d : Deployment) : Serving where
  deployment := d
  handlers n :=
    if n ∈ v.deployment.system.running ∧ n ∉ d.system.running then none else v.handlers n

/-- The serving in which a handler has come further. -/
def advance (v : Serving) (n : ℕ) (handler : Handler) : Serving :=
  { v with handlers := Function.update v.handlers n (some handler) }

/-- One action. A call begins only by the handler that has had its objects checked. -/
def step (s : Service) (v : Serving) : Action → Option Serving
  | .receive n call =>
    if n ∈ v.deployment.system.running then none
    else (call.declarations v.deployment.system.world.rows).map fun declarations =>
      v.advance n ⟨call, [], declarations⟩
  | .check n =>
    match v.handlers n with
    | some ⟨call, checked, declaration :: unchecked⟩ =>
      if (declaration.commit v.deployment.store).isSome then
        some (v.advance n ⟨call, checked ++ [declaration], unchecked⟩)
      else none
    | _ => none
  | .call n =>
    match v.handlers n with
    | some ⟨call, _, []⟩ => (v.deployment.step s (.database (.start n call))).map v.follow
    | _ => none
  | .other activity =>
    if activity.begins then none else (v.deployment.step s activity).map v.follow

/-- Run a list of actions from the left. -/
def execute (s : Service) : List Action → Serving → Option Serving
  | [], v => some v
  | action :: rest, v => (v.step s action).bind (execute s rest)

/-- An object that has been checked for a call that has not ended. -/
def Awaits (v : Serving) (identity : Identity) : Prop :=
  ∃ n handler, v.handlers n = some handler ∧
    ∃ declaration ∈ handler.checked, declaration.object.stored = identity

/-- All passes under way spare an object that is checked. A pass that begins to remove files
spares the objects that are retained or awaited by now. -/
def Sparing (v : Serving) : Action → Prop
  | .check n => ∀ call checked declaration unchecked,
      v.handlers n = some ⟨call, checked, declaration :: unchecked⟩ →
      ∀ place file, v.deployment.store.disk.file place = some file →
        v.deployment.store.identity place file = declaration.object.stored →
        ∀ m pass, v.deployment.passes m = some pass → v.deployment.Spares pass place file
  | .other (.cleanup n) => ∀ pass, v.deployment.passes n = some pass →
      ∀ identity, identity ∈ v.deployment.retained ∨ v.Awaits identity →
        v.deployment.Lasting pass.keep identity
  | _ => True

/-- The servings that sparing actions lead to, from an empty database and any store. -/
inductive Reachable (s : Service) : Serving → Prop
  | initial (clock : ℤ) (store : Filesystem) :
      Reachable s ⟨⟨⟨World.initial clock, ∅⟩, store, fun _ => none⟩, fun _ => none⟩
  | step {v v' : Serving} {action : Action} : Reachable s v → v.Sparing action →
      v.step s action = some v' → Reachable s v'

/-- What sparing actions keep: checked objects are safe, a handler has the objects of its call
checked, and each session serves the call of a handler that has had all of them checked. -/
structure Invariant (v : Serving) : Prop where
  checked : ∀ n handler, v.handlers n = some handler → ∀ declaration ∈ handler.checked,
    v.deployment.Safe declaration.object.stored
  declared : ∀ n handler, v.handlers n = some handler →
    handler.call.objects v.deployment.system.world.rows =
      some ((handler.checked ++ handler.unchecked).map (·.object))
  served : ∀ n t, v.deployment.system.running.lookup n = some t →
    ∃ checked, v.handlers n = some ⟨t.session.call, checked, []⟩

end Serving

section Commit

variable {p : Policy} {s : Service} {σ : Session} {reply : Reply} {w : World}
  {object : ObjectIdentity}

/-- What a handler has checked are the objects of its call. -/
theorem Call.objects_of_declarations {store : Store} {call : Call}
    {declarations : List Declaration} (h : call.declarations store = some declarations) :
    call.objects store = some (declarations.map (·.object)) := by
  cases call with
  | completeUpload workspace runID version digest size randomInput randomJob =>
    obtain ⟨upload, hupload, hdeclared⟩ := Option.bind_eq_some_iff.mp h
    obtain ⟨run, hparse, hrow⟩ := Option.bind_eq_some_iff.mp hupload
    obtain ⟨row, hfilter, rfl⟩ := Option.map_eq_some_iff.mp hrow
    obtain ⟨hstored, _⟩ := Option.filter_eq_some_iff.mp hfilter
    split at hdeclared
    · obtain rfl := Option.some.inj hdeclared
      simp [Call.objects, hparse, hstored]
    · cases hdeclared
  | completeAttempt jobID attempt token result random =>
    simp only [Call.declarations] at h
    split at h
    · obtain rfl := Option.some.inj h
      rfl
    · cases h
  | _ =>
    obtain rfl := Option.some.inj h
    rfl

/-- A commit leaves the objects of every call as they are: a run keeps its object key. -/
theorem Guarantee.objects (h : Guarantee p s σ reply w) {call : Call}
    {objects : List ObjectIdentity} (hobjects : call.objects w.rows = some objects) :
    call.objects (σ.after w) = some objects := by
  cases call with
  | completeUpload workspace runID version digest size randomInput randomJob =>
    obtain ⟨row, hrow, rfl⟩ := Option.map_eq_some_iff.mp hobjects
    obtain ⟨run, hparse, hold⟩ := Option.bind_eq_some_iff.mp hrow
    have hstep := h.runs run
    obtain ⟨row', hrow', _⟩ := hstep.run_some hold
    rw [hold, hrow'] at hstep
    have hkey : row'.bundleObjectKey = row.bundleObjectKey := by cases hstep <;> rfl
    simp [Call.objects, hparse, hrow', hkey]
  | _ => exact hobjects

/-- A bundle that is newly retained is one that the call has uploaded. -/
theorem Guarantee.retained_bundle (h : Guarantee p s σ reply w)
    (hobject : object ∈ retainedBundles w.clock (σ.after w)) :
    object ∈ retainedBundles w.clock w.rows ∨
      ∃ objects, σ.call.objects w.rows = some objects ∧ object ∈ objects := by
  obtain ⟨run, row, hrow, hstate, hnow, hkey, hversion⟩ := mem_retainedBundles.mp hobject
  have hstep := h.runs run
  rw [hrow] at hstep
  cases hold : w.rows.run run with
  | none =>
    rw [hold] at hstep
    cases hstep with
    | create _ hdeclared => simp [hdeclared.2.1] at hversion
  | some old =>
    rw [hold] at hstep
    cases hstep with
    | same => exact .inl (mem_retainedBundles.mpr ⟨run, row, hold, hstate, hnow, hkey, hversion⟩)
    | upload _ version hpending =>
      obtain ⟨_, version', hversion', huploads⟩ := h.runsUploaded run old _ hold hrow hpending rfl
      obtain ⟨workspace, runID, digest, size, randomInput, randomJob, hcall, hparse⟩ := huploads
      refine .inr ⟨[⟨old.bundleObjectKey, version'⟩], ?_, List.mem_singleton.mpr ?_⟩
      · rw [hcall]
        simp [Call.objects, hparse, hold]
      · obtain rfl := Option.some.inj (hversion.symm.trans hversion')
        obtain ⟨key, version⟩ := object
        obtain rfl : old.bundleObjectKey = key := hkey
        rfl
    | ready _ _ _ _ _ _ hvalidating =>
      exact .inl (mem_retainedBundles.mpr
        ⟨run, old, hold, by simp [hvalidating], hnow, hkey, hversion⟩)
    | invalidate _ _ _ hvalidating =>
      exact .inl (mem_retainedBundles.mpr
        ⟨run, old, hold, by simp [hvalidating], hnow, hkey, hversion⟩)
    | expire => exact absurd rfl hstate
    | delete => exact absurd rfl hstate

/-- The artifacts of a job after a completion are the earlier ones and those with the objects
that the completion declares. -/
theorem Registered.declared {old new : Store} {now : Timestamp} {job workspace artifactID : Uuid}
    {jobID : String} {n : ℤ} {operation : Operation} {result : Completion}
    (h : Registered old new now job workspace jobID n operation result artifactID)
    {kind : ArtifactKind} {artifact : ArtifactRow}
    (hartifact : new.artifact job kind = some artifact) :
    old.artifact job kind = some artifact ∨
      ⟨artifact.objectKey, artifact.objectVersion⟩ ∈ (result.declaration ::
        result.companions.map CompanionArtifact.declaration).map (·.object) := by
  by_cases hkind : kind = expectedKind operation
  · subst hkind
    obtain rfl := Option.some.inj (h.row.symm.trans hartifact)
    exact .inr List.mem_cons_self
  by_cases hcompanion : kind ∈ expectedCompanions operation
  · have hzip : kind ∈ (result.companions.zip (expectedCompanions operation)).map Prod.snd := by
      rwa [List.map_snd_zip h.length.ge]
    obtain ⟨⟨companion, _⟩, hmem, rfl⟩ := List.mem_map.mp hzip
    obtain ⟨_, _, id, _, hfound⟩ := h.companions _ hmem
    obtain rfl := Option.some.inj (hfound.symm.trans hartifact)
    have hdeclared := List.mem_map_of_mem (f := CompanionArtifact.declaration)
      (List.of_mem_zip hmem).1
    exact .inr (List.mem_cons_of_mem _ (List.mem_map_of_mem hdeclared))
  · exact .inl ((h.others kind hkind hcompanion).symm.trans hartifact)

/-- An artifact that is newly retained is one that the call has registered. -/
theorem Guarantee.retained_artifact (hinv : Consistent p s w.rows) (h : Guarantee p s σ reply w)
    (hobject : object ∈ retainedArtifacts w.clock (σ.after w)) :
    object ∈ retainedArtifacts w.clock w.rows ∨
      ∃ objects, σ.call.objects w.rows = some objects ∧ object ∈ objects := by
  obtain ⟨job, kind, artifact, hartifact, hretained, rfl⟩ := mem_retainedArtifacts.mp hobject
  have hkept : w.rows.artifact job kind = some artifact →
      ⟨artifact.objectKey, artifact.objectVersion⟩ ∈ retainedArtifacts w.clock w.rows := fun hold =>
    mem_retainedArtifacts.mpr ⟨job, kind, artifact, hold, hretained, rfl⟩
  obtain ⟨row, hrow, hsucceeded⟩ := ((h.consistent hinv).jobs job).succeeded_of_artifact hartifact
  rcases h.succeeds job row hrow hsucceeded with hold | hcompletes
  · -- the job was over before, and its artifacts can only have expired
    have hterminal : row.state.terminal = true := by
      rw [hsucceeded]
      rfl
    rcases ((h.jobs job).terminal hold hterminal).2 kind with hsame | ⟨old, _, hexpired⟩
    · exact .inl (hkept (hsame.symm.trans hartifact))
    · obtain rfl := Option.some.inj (hexpired.symm.trans hartifact)
      have hgone : (old.expire σ.now).retained w.clock = false := not_retained h.time
      simp [hgone] at hretained
  · obtain ⟨jobID, n, token, result, random, hcall, hparse⟩ := hcompletes
    have heffect := h.effect
    rw [Effect, hcall] at heffect
    obtain ⟨job', _, _, input, _, hparse', _, _, _, _, hregistered, _⟩ := heffect
    obtain rfl := Option.some.inj (hparse'.symm.trans hparse)
    refine (hregistered.declared hartifact).imp hkept fun hmem => ⟨_, ?_, hmem⟩
    rw [hcall]
    rfl

/-- An object that is newly retained when a call commits is one of the objects of the call. -/
theorem Guarantee.retained (hinv : Consistent p s w.rows) (h : Guarantee p s σ reply w)
    (hobject : object ∈ retainedObjects w.clock (σ.after w)) :
    object ∈ retainedObjects w.clock w.rows ∨
      ∃ objects, σ.call.objects w.rows = some objects ∧ object ∈ objects := by
  rcases List.mem_append.mp hobject with hbundle | hartifact
  · exact (h.retained_bundle hbundle).imp_left (List.mem_append_left _)
  · exact (h.retained_artifact hinv hartifact).imp_left (List.mem_append_right _)

end Commit

namespace Serving

variable {s : Service} {v v' : Serving} {d : Deployment}

/-- In a serving that keeps the invariant the database refers to safe objects only, whatever it
does next. -/
theorem Invariant.calm (h : v.Invariant)
    (hsystem : System.Reachable (transaction s) Anything v.deployment.system)
    (event : Event Call) : v.deployment.Calm s (.database event) := by
  intro d' hstep identity hretained hnew
  obtain ⟨system, hsystem', rfl⟩ := Option.map_eq_some_iff.mp hstep
  have hsound := sound_of_reachable hsystem
  obtain ⟨object, hobject, rfl⟩ := List.mem_map.mp hretained
  rcases hsound.step_rows (anything_schedules s) trivial hsystem' with
    ⟨hrows, hclock⟩ | ⟨n, t, reply, ht, hguar, rfl⟩
  · refine absurd (List.mem_map_of_mem (retainedObjects_of_le hclock ?_)) hnew
    rw [World.rows, ← hrows]
    exact hobject
  · rcases hguar.retained hsound.inv hobject with hbefore | ⟨objects, hobjects, hmem⟩
    · exact absurd (List.mem_map_of_mem hbefore) hnew
    · -- the handler of the session has had the objects of its call checked
      obtain ⟨checked, hhandler⟩ := h.served n t ht
      have hdeclared := h.declared n _ hhandler
      obtain rfl := Option.some.inj (hobjects.symm.trans hdeclared)
      obtain ⟨declaration, hchecked, rfl⟩ := List.mem_map.mp hmem
      rw [List.append_nil] at hchecked
      exact h.checked n _ hhandler declaration hchecked

/-- A session that has a transaction is open. -/
theorem mem_running {running : AList fun _ : ℕ => Transaction Row Call Err Reply} {n : ℕ}
    {t : Transaction Row Call Err Reply} (ht : running.lookup n = some t) : n ∈ running :=
  AList.lookup_isSome.mp (by rw [ht]; rfl)

/-- The state of one handler is replaced. -/
theorem advance_handlers (v : Serving) (n m : ℕ) (handler : Handler) :
    (v.advance n handler).handlers m = if m = n then some handler else v.handlers m :=
  Function.update_apply v.handlers n (some handler) m

/-- A handler that goes on when the deployment does had the same state before. -/
theorem follow_handlers {n : ℕ} {handler : Handler}
    (h : (v.follow d).handlers n = some handler) : v.handlers n = some handler := by
  simp only [follow] at h
  split at h
  · cases h
  · exact h

/-- The handler of a session that is open goes on. -/
theorem follow_handlers_of_running {n : ℕ} (h : n ∈ d.system.running) :
    (v.follow d).handlers n = v.handlers n := by
  simp [follow, h]

/-- What happens to the deployment keeps the invariant if the calls that begin have had their
objects checked, and a pass that begins to remove files spares the awaited objects. -/
theorem Invariant.follow (h : v.Invariant)
    (hsystem : System.Reachable (transaction s) Anything v.deployment.system)
    (hold : v.deployment.Old) {activity : Activity}
    (hbegins : ∀ n call, activity = .database (.start n call) →
      ∃ checked, v.handlers n = some ⟨call, checked, []⟩)
    (hcleanup : ∀ n pass, activity = .cleanup n → v.deployment.passes n = some pass →
      ∀ identity, v.Awaits identity → v.deployment.Lasting pass.keep identity)
    (hstep : v.deployment.step s activity = some d) : (v.follow d).Invariant where
  checked n handler hhandler declaration hmem := by
    have hbefore := follow_handlers hhandler
    have hawaits : v.Awaits declaration.object.stored := ⟨n, handler, hbefore, declaration, hmem, rfl⟩
    exact (h.checked n handler hbefore declaration hmem).step hold
      (fun m pass hactivity hpass => hcleanup m pass hactivity hpass _ hawaits) hstep
  declared n handler hhandler := by
    have hdeclared := h.declared n handler (follow_handlers hhandler)
    by_cases hactivity : ∃ event, activity = .database event
    · obtain ⟨event, rfl⟩ := hactivity
      obtain ⟨system, hsystem', rfl⟩ := Option.map_eq_some_iff.mp hstep
      rcases (sound_of_reachable hsystem).step_rows (anything_schedules s) trivial hsystem' with
        ⟨hrows, _⟩ | ⟨m, t, reply, _, hguar, rfl⟩
      · change handler.call.objects system.world.store = _
        rw [hrows]
        exact hdeclared
      · exact hguar.objects hdeclared
    · change handler.call.objects d.system.world.rows = _
      rw [Deployment.system_of_step hstep fun event hevent => hactivity ⟨event, hevent⟩]
      exact hdeclared
  served n t ht := by
    change d.system.running.lookup n = some t at ht
    rw [follow_handlers_of_running (mem_running ht)]
    by_cases hactivity : ∃ event, activity = .database event
    · obtain ⟨event, rfl⟩ := hactivity
      obtain ⟨system, hsystem', rfl⟩ := Option.map_eq_some_iff.mp hstep
      rcases System.step_opened hsystem' ht with ⟨t', ht', hcall, _⟩ | ⟨call, rfl, hsession⟩
      · rw [hcall]
        exact h.served n t' ht'
      · rw [hsession]
        exact hbegins n call rfl
    · rw [Deployment.system_of_step hstep fun event hevent => hactivity ⟨event, hevent⟩] at ht
      exact h.served n t ht

/-- A handler comes further: the invariant is kept if this handler keeps its part of it and
is not replaced while its session is open. -/
theorem Invariant.advance (h : v.Invariant) {n : ℕ} {handler : Handler}
    (hchecked : ∀ declaration ∈ handler.checked, v.deployment.Safe declaration.object.stored)
    (hdeclared : handler.call.objects v.deployment.system.world.rows =
      some ((handler.checked ++ handler.unchecked).map (·.object)))
    (hclosed : n ∉ v.deployment.system.running) : (v.advance n handler).Invariant := by
  have hhandlers : ∀ m other, (v.advance n handler).handlers m = some other →
      other = handler ∨ v.handlers m = some other := by
    intro m other hother
    rw [advance_handlers] at hother
    split at hother
    · exact .inl (Option.some.inj hother).symm
    · exact .inr hother
  refine ⟨fun m other hother => ?_, fun m other hother => ?_, fun m t ht => ?_⟩
  · rcases hhandlers m other hother with rfl | hbefore
    · exact hchecked
    · exact h.checked m other hbefore
  · rcases hhandlers m other hother with rfl | hbefore
    · exact hdeclared
    · exact h.declared m other hbefore
  · change v.deployment.system.running.lookup m = some t at ht
    have hm : m ≠ n := by
      rintro rfl
      exact hclosed (mem_running ht)
    rw [advance_handlers, if_neg hm]
    exact h.served m t ht

/-- Sparing actions keep the invariant. -/
theorem Invariant.step (h : v.Invariant)
    (hsystem : System.Reachable (transaction s) Anything v.deployment.system)
    (hold : v.deployment.Old) {action : Action} (hsparing : v.Sparing action)
    (hstep : v.step s action = some v') : v'.Invariant := by
  cases action with
  | receive n call =>
    simp only [Serving.step] at hstep
    split at hstep
    · cases hstep
    · next hclosed =>
      obtain ⟨declarations, hdeclarations, rfl⟩ := Option.map_eq_some_iff.mp hstep
      refine h.advance (fun declaration hmem => ?_) ?_ hclosed
      · cases hmem
      · exact Call.objects_of_declarations hdeclarations
  | check n =>
    simp only [Serving.step] at hstep
    split at hstep
    · next call checked declaration unchecked hhandler =>
      split at hstep
      · next hcommit =>
        obtain rfl := Option.some.inj hstep
        refine h.advance (fun other hmem => ?_) ?_ fun hrunning => ?_
        · rcases List.mem_append.mp hmem with hbefore | hnew
          · exact h.checked n _ hhandler other hbefore
          · -- the object is in a file, and all passes spare its files
            obtain rfl := List.mem_singleton.mp hnew
            obtain ⟨place, file, hfile, hidentity⟩ := Filesystem.file_of_commit hcommit
            exact ⟨place, file, hfile, hidentity, hsparing call checked other unchecked hhandler
              place file hfile hidentity⟩
        · rw [h.declared n _ hhandler, List.append_assoc]
          rfl
        · -- a session is open only when its handler has nothing left to check
          obtain ⟨t, ht⟩ := Option.isSome_iff_exists.mp (AList.lookup_isSome.mpr hrunning)
          obtain ⟨_, hserved⟩ := h.served n t ht
          cases hhandler.symm.trans hserved
      · cases hstep
    · cases hstep
  | call n =>
    simp only [Serving.step] at hstep
    split at hstep
    · next call checked hhandler =>
      obtain ⟨d, hd, rfl⟩ := Option.map_eq_some_iff.mp hstep
      refine h.follow hsystem hold (fun m other hevent => ?_) (fun m pass hcleanup => ?_) hd
      · cases hevent
        exact ⟨checked, hhandler⟩
      · cases hcleanup
    · cases hstep
  | other activity =>
    simp only [Serving.step] at hstep
    split at hstep
    · cases hstep
    · next hbegins =>
      obtain ⟨d, hd, rfl⟩ := Option.map_eq_some_iff.mp hstep
      refine h.follow hsystem hold (fun n call hevent => ?_) (fun n pass hcleanup hpass => ?_) hd
      · subst hevent
        exact absurd rfl hbegins
      · subst hcleanup
        exact fun identity hawaits => hsparing pass hpass identity (.inr hawaits)

/-- A sparing action leaves the deployment as it is or is a calm activity of it. -/
theorem Invariant.deployment (h : v.Invariant)
    (hsystem : System.Reachable (transaction s) Anything v.deployment.system) {action : Action}
    (hsparing : v.Sparing action) (hstep : v.step s action = some v') :
    v'.deployment = v.deployment ∨ ∃ activity, v.deployment.Calm s activity ∧
      v.deployment.step s activity = some v'.deployment := by
  cases action with
  | receive n call =>
    simp only [Serving.step] at hstep
    split at hstep
    · cases hstep
    · obtain ⟨_, _, rfl⟩ := Option.map_eq_some_iff.mp hstep
      exact .inl rfl
  | check n =>
    simp only [Serving.step] at hstep
    split at hstep
    · split at hstep
      · obtain rfl := Option.some.inj hstep
        exact .inl rfl
      · cases hstep
    · cases hstep
  | call n =>
    simp only [Serving.step] at hstep
    split at hstep
    · obtain ⟨d, hd, rfl⟩ := Option.map_eq_some_iff.mp hstep
      exact .inr ⟨_, h.calm hsystem _, hd⟩
    · cases hstep
  | other activity =>
    simp only [Serving.step] at hstep
    split at hstep
    · cases hstep
    · obtain ⟨d, hd, rfl⟩ := Option.map_eq_some_iff.mp hstep
      refine .inr ⟨activity, ?_, hd⟩
      cases activity with
      | database event => exact h.calm hsystem event
      | cleanup n =>
        intro pass hpass identity hidentity
        exact hsparing pass hpass identity (.inl hidentity)
      | _ => trivial

/-- In every run of sparing actions the deployment goes through calm activities, and the
invariant holds. The induction is on the run. -/
theorem Reachable.calm (h : Reachable s v) :
    Deployment.Reachable s (Deployment.Calm s) v.deployment ∧ v.Invariant := by
  induction h with
  | initial clock store =>
    refine ⟨.initial clock store, ⟨fun n handler hhandler => ?_, fun n handler hhandler => ?_,
      fun n t ht => ?_⟩⟩
    · cases hhandler
    · cases hhandler
    · exact absurd ht (by simp [AList.lookup_empty])
  | @step v v' action _ hsparing hstep ih =>
    obtain ⟨hcalm, hinv⟩ := ih
    refine ⟨?_, hinv.step hcalm.system hcalm.invariant.old hsparing hstep⟩
    rcases hinv.deployment hcalm.system hsparing hstep with hsame | ⟨activity, hactivity, hd⟩
    · rw [hsame]
      exact hcalm
    · exact hcalm.step hactivity hd

end Serving

/-- Where handlers have the objects of a call checked before they make it, and passes spare
the objects of calls that have not ended, the objects that runs and artifacts refer to are in
the artifact store. -/
theorem checked_objects_present {s : Service} {v : Serving} (h : Serving.Reachable s v) :
    ∀ identity ∈ v.deployment.retained, v.deployment.store.holds identity = true := by
  intro identity hretained
  exact (h.calm.1.invariant.safe identity hretained).holds

/-- A request whose call runs alone. -/
def demoHandled (call : Call) (objects statements : ℕ) : List Action :=
  .receive 0 call :: List.replicate objects (.check 0) ++
    .call 0 :: List.replicate statements (.other (.database (.run 0)))

/-- A bundle is uploaded, checked and retained. -/
example :
    ((Serving.execute demo
      (demoHandled (.createUpload 7 demoDigest 1 1) 0 4 ++
        .other (.put demoBundle.key demoBundle.version 1 [0]) ::
          demoHandled (.completeUpload 7 (newID 1).text demoDigest demoDigest 1 2 3) 1 9)
      ⟨demoDeployment fun _ => none, fun _ => none⟩).any fun v =>
        v.deployment.retained.contains demoBundle && v.deployment.store.holds demoBundle) = true := by
  decide +kernel

end Tracewake.Hosted
