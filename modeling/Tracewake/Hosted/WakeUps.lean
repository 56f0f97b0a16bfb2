import Tracewake.Hosted.WorkableJobs

/-!
# Wake-ups through the outbox

A queued job is announced by a notification of its current version, or the reconciler
announces it again. A notification of one version starts at most one attempt, however
often it is delivered.
-/

namespace Tracewake.Hosted

open ReadCommitted

variable {s : Service} {job : Uuid} {version : ℤ}

/-- A claim of the job at a version that has been granted. -/
def granted (job : Uuid) (version : ℤ) (f : Finished Call Err Reply) : Bool :=
  match f.call, f.result with
  | .claim _ jobID expected _, .ok _ => Uuid.parse jobID = some job ∧ expected = version
  | _, _ => false

/-- A retention sweep that has been completed. -/
def swept (f : Finished Call Err Reply) : Bool :=
  match f.call, f.result with
  | .enforceRetention, .ok _ => true
  | _, _ => false

/-- The last minute has seen no change and no notification of the job. -/
def GraceElapsed (store : Store) (job : Uuid) (row : JobRow) (now : Timestamp) : Prop :=
  row.updatedAt < now - seconds 60 ∧ ∀ version sent, store.outbox job version = some sent →
    sent.createdAt ≤ now - seconds 60

/-- The job has a notification of its current version. -/
def Store.Announced (store : Store) (job : Uuid) (row : JobRow) : Prop :=
  ∃ sent, store.outbox job row.rowVersion = some sent ∧ sent.payload.jobVersion = row.rowVersion

/-- The test of a finished call finds the claims of the job at the version that were
granted. -/
theorem granted_iff {f : Finished Call Err Reply} : granted job version f = true ↔
    ∃ worker jobID token reply, f.call = .claim worker jobID version token ∧
      f.result = .ok reply ∧ Uuid.parse jobID = some job := by
  unfold granted
  split
  · next worker jobID expected token reply hcall hresult =>
    simp only [Bool.decide_and, Bool.and_eq_true, decide_eq_true_eq, hcall, hresult]
    constructor
    · rintro ⟨hjob, rfl⟩
      exact ⟨worker, jobID, token, reply, rfl, rfl, hjob⟩
    · rintro ⟨_, _, _, _, hsame, _, hjob⟩
      obtain ⟨_, rfl, rfl, _⟩ := Call.claim.inj hsame
      exact ⟨hjob, rfl⟩
  · next hother =>
    refine ⟨fun h => by simp at h, ?_⟩
    rintro ⟨worker, jobID, token, reply, hcall, hresult, _⟩
    exact absurd hresult (hother worker jobID version token reply hcall)

/-- The claims that have been granted at one version of a job. -/
structure GrantedOnce (job : Uuid) (version : ℤ) (w : World) : Prop where
  once : (w.history.filter (granted job version)).length ≤ 1
  passed : w.history.filter (granted job version) ≠ [] →
    ∃ row, w.rows.job job = some row ∧ version < row.rowVersion

/-- Every queued job is announced unless a retention sweep has run. -/
def QueueAnnounced (w : World) : Prop :=
  ∀ job row, w.rows.job job = some row → row.state = .queued →
    (∃ sent, w.rows.outbox job row.rowVersion = some sent) ∨ ∃ f ∈ w.history, swept f = true

section Moves

variable {p : Policy} {w w' : World}

/-- A move that grants no claim keeps the claims that were granted. -/
theorem GrantedOnce.keep (h : GrantedOnce job version w)
    (hfilter : w'.history.filter (granted job version) = w.history.filter (granted job version))
    (hjob : ∀ row, w.rows.job job = some row →
      ∃ row', w'.rows.job job = some row' ∧ row.rowVersion ≤ row'.rowVersion) :
    GrantedOnce job version w' := by
  refine ⟨by rw [hfilter]; exact h.once, fun hgranted => ?_⟩
  rw [hfilter] at hgranted
  obtain ⟨row, hrow, hlt⟩ := h.passed hgranted
  obtain ⟨row', hrow', hle⟩ := hjob row hrow
  exact ⟨row', hrow', by omega⟩

/-- At most one claim at a version is granted, whatever happens next. -/
theorem GrantedOnce.move (hversion : 0 < version) (h : GrantedOnce job version w)
    (hmove : (contract p s).Moves w w') : GrantedOnce job version w' := by
  have hsame : ∀ row, w.rows.job job = some row →
      ∃ row', w.rows.job job = some row' ∧ row.rowVersion ≤ row'.rowVersion :=
    fun row hrow => ⟨row, hrow, le_rfl⟩
  cases hmove with
  | tick n => exact h.keep rfl hsame
  | draw => exact h.keep rfl hsame
  | refuse σ error _ =>
    refine h.keep ?_ hsame
    rw [World.refuse_history, List.filter_cons_of_neg]
    rw [granted_iff]
    rintro ⟨_, _, _, _, _, hresult, _⟩
    cases hresult
  | commit σ reply _ _ hguar =>
    have hguar : Guarantee p s σ reply w := hguar
    have hjob : ∀ row, w.rows.job job = some row →
        ∃ row', (σ.after w).job job = some row' ∧ row.rowVersion ≤ row'.rowVersion := by
      intro row hrow
      obtain ⟨row', hrow', _, _, rfl | hlt⟩ := hguar.job_some hrow
      · exact ⟨row', hrow', le_rfl⟩
      · exact ⟨row', hrow', hlt.le⟩
    by_cases hgrant : granted job version ⟨σ.call, σ.now, w.clock, .ok reply⟩ = true
    · obtain ⟨worker, jobID, token, _, hcall, _, hparse⟩ := granted_iff.mp hgrant
      have heffect : Effect p s σ reply w := hguar.effect
      have hclaim : σ.call = .claim worker jobID version token := hcall
      rw [Effect, hclaim] at heffect
      obtain ⟨job', row, n, hparse', hrow, _, hexpected, hrow'⟩ := heffect
      obtain rfl := Option.some.inj (hparse.symm.trans hparse')
      have hcurrent : version = row.rowVersion := hexpected.resolve_left (by omega)
      have hnone : w.history.filter (granted job version) = [] := by
        by_contra hgranted
        obtain ⟨row₁, hrow₁, hlt⟩ := h.passed hgranted
        obtain rfl := Option.some.inj (hrow.symm.trans hrow₁)
        omega
      refine ⟨?_, fun _ => ⟨_, hrow', ?_⟩⟩
      · rw [World.commit_history, List.filter_cons_of_pos hgrant, hnone]
        simp
      · simp only [JobRow.claim]
        omega
    · refine h.keep ?_ hjob
      rw [World.commit_history, List.filter_cons_of_neg hgrant]

/-- A queued job stays announced, whatever happens next, until the sweep removes the
notification. -/
theorem QueueAnnounced.move (h : QueueAnnounced w) (hmove : (contract p s).Moves w w') :
    QueueAnnounced w' := by
  have hmore : ∀ entry : Finished Call Err Reply, (∃ f ∈ w.history, swept f = true) →
      ∃ f ∈ entry :: w.history, swept f = true :=
    fun entry ⟨f, hf, hswept⟩ => ⟨f, List.mem_cons_of_mem entry hf, hswept⟩
  cases hmove with
  | tick n => exact h
  | draw => exact h
  | refuse σ error _ =>
    intro job row hrow hqueued
    exact (h job row hrow hqueued).imp_right (hmore _)
  | commit σ reply _ _ hguar =>
    have hguar : Guarantee p s σ reply w := hguar
    intro job row hrow hqueued
    rcases hguar.announced job row hrow hqueued with hold | hsent
    · rcases h job row hold hqueued with ⟨sent, hsent⟩ | hswept
      · rcases hguar.outboxKept job row.rowVersion sent hsent with ⟨sent', hsent', _⟩ | ⟨_, hcall, _⟩
        · exact .inl ⟨sent', hsent'⟩
        · refine .inr ⟨_, List.mem_cons_self, ?_⟩
          simp only [swept, hcall]
      · exact .inr (hmore _ hswept)
    · exact .inl hsent

end Moves

/-- A queued job without a notification of its version is found by the reconciler once
its grace has elapsed and nothing older of it is waiting to be published. -/
theorem Consistent.stranded {p : Policy} {store : Store} (hinv : Consistent p s store)
    {row : JobRow} {now : Timestamp} (hrow : store.job job = some row) (hqueued : row.state = .queued)
    (hnone : store.outbox job row.rowVersion = none) (hgrace : GraceElapsed store job row now)
    (holder : ∀ version sent, version < row.rowVersion → store.outbox job version = some sent →
      sent.publishedAt ≠ none) : stranded now store job row = true := by
  have hpublished : ∀ version sent, store.outbox job version = some sent →
      sent.publishedAt.isSome = true ∧ sent.createdAt ≤ now - seconds 60 := by
    intro version sent hsent
    obtain ⟨row', _, hrow', hle, _⟩ := hinv.outbox job version sent hsent
    obtain rfl := Option.some.inj (hrow.symm.trans hrow')
    have hne : version ≠ row.rowVersion := by
      rintro rfl
      simp [hnone] at hsent
    exact ⟨Option.isSome_iff_ne_none.mpr (holder version sent (by omega) hsent),
      hgrace.2 version sent hsent⟩
  simp only [Hosted.stranded, hqueued, hgrace.1, decide_true, Bool.true_and, List.all_eq_true,
    Bool.or_eq_true, decide_eq_true_eq, Option.all_eq_true, Bool.and_eq_true]
  rintro ⟨owner, version⟩ _
  by_cases howner : owner = job
  · subst howner
    exact .inr fun sent hsent => hpublished version sent hsent
  · exact .inl howner

/-- No wake-up is lost: a queued job is announced at its version, or retention has swept
its notification and the reconciler finds it; no notification collides with another one;
and one version of a job is granted to one claim at most. -/
theorem no_lost_wakeup {system : System} (h : System.Reachable (transaction s) Anything system) :
    (∀ job row, system.world.rows.job job = some row → row.state = .queued →
      system.world.rows.Announced job row ∨
      (∃ f ∈ system.world.history, swept f = true) ∧
      ∀ now, GraceElapsed system.world.rows job row now →
        (∀ version sent, version < row.rowVersion →
          system.world.rows.outbox job version = some sent → sent.publishedAt ≠ none) →
        stranded now system.world.rows job row = true) ∧
    (∀ n t context, system.running.lookup n = some t →
      t.program ≠ .fail (.database context (.uniqueViolation outboxConstraint))) ∧
    ∀ job version, 0 < version → (system.world.history.filter (granted job version)).length ≤ 1 := by
  have hsound := sound_of_reachable h
  have hinv : Consistent unrestricted s system.world.rows := hsound.inv
  refine ⟨fun job row hrow hqueued => ?_, fun n t context ht hfail => ?_,
    fun job version hversion => ?_⟩
  · have hannounced : QueueAnnounced system.world := by
      refine (verified unrestricted s).invariant (anything_schedules s) (fun clock => ?_)
        (fun w w' _ hmove _ hbefore => hbefore.move hmove) h
      exact fun job row hrow => absurd hrow (by simp [Store.job, World.initial, World.rows])
    cases hsent : system.world.rows.outbox job row.rowVersion with
    | some sent =>
      obtain ⟨_, operation, _, _, hpayload⟩ := hinv.outbox job row.rowVersion sent hsent
      exact .inl ⟨sent, hsent, by rw [hpayload]; rfl⟩
    | none =>
      refine .inr ⟨(hannounced job row hrow hqueued).resolve_left (by simp [hsent]), ?_⟩
      exact fun now hgrace holder => hinv.stranded hrow hqueued hsent hgrace holder
  · have hwp := hsound.verified n t ht
    rw [hfail] at hwp
    have hrefusal : Refusal unrestricted s t.session _ system.world :=
      Contract.wp_fail_iff.mp hwp system.world .refl hinv
    exact hrefusal.outbox context rfl
  · have hgranted : GrantedOnce job version system.world := by
      refine (verified unrestricted s).invariant (anything_schedules s) (fun clock => ?_)
        (fun w w' _ hmove _ hbefore => hbefore.move hversion hmove) h
      exact ⟨by simp [World.initial], fun hgranted => absurd rfl hgranted⟩
    exact hgranted.once

/-- In the example no sweep has run when the job is queued. -/
theorem demoUpload_unswept :
    (((World.initial 0 : World).serve (transaction demo) (demoValidation.take 2)).any fun w =>
      (w.rows.job (newID 3)).any (fun row => row.state = .queued) &&
        w.history.all fun f => !swept f) = true := by
  decide +kernel

/-- The validation job of an upload is announced. -/
theorem no_lost_wakeup_uploaded : ∃ (system : System) (row : JobRow),
    system.world.rows.job (newID 3) = some row ∧ row.state = .queued ∧
      system.world.rows.Announced (newID 3) row := by
  obtain ⟨w, hrun, hany⟩ := (Option.any_eq_true _ _).mp demoUpload_unswept
  rw [Bool.and_eq_true] at hany
  obtain ⟨row, hrow, hstate⟩ := (Option.any_eq_true _ _).mp hany.1
  have hqueued : row.state = .queued := of_decide_eq_true hstate
  have hserial : Serial (transaction demo) w := Serial.serve (.initial 0) hrun
  have hreachable : System.Reachable (transaction demo) Anything ⟨w, ∅⟩ :=
    hserial.reachable fun _ _ _ => trivial
  refine ⟨⟨w, ∅⟩, row, hrow, hqueued, ?_⟩
  rcases (no_lost_wakeup hreachable).1 (newID 3) row hrow hqueued with hsent | ⟨⟨f, hf, hswept⟩, _⟩
  · exact hsent
  · simpa [hswept] using List.all_eq_true.mp hany.2 f hf

/-- A job is queued for its second attempt. The notification of this is published and
swept, while the notification of the first attempt has never been published. -/
def demoSwept : List (Call × ℕ) :=
  demoValidation ++
    [(.failAttempt (newID 3).text 1 "token" "internal" "worker stopped" true, 5000000),
      (.reconcile 10, 0),
      (.acknowledgeNotification 4, 8 * 86400 * 1000000),
      (.enforceRetention, 0)]

/-- In the example the sweep leaves a queued job that reconciliation does not find. -/
theorem demoSwept_stuck :
    (((World.initial 0 : World).serve (transaction demo) demoSwept).any fun w =>
      (w.rows.job (newID 3)).any (fun row => row.state = .queued &&
        (w.rows.outbox (newID 3) row.rowVersion).isNone &&
        row.updatedAt < w.clock - seconds 60 && !stranded w.clock w.rows (newID 3) row)) = true := by
  decide +kernel

/-- A queued job can lack a notification of its version and yet not be found by the
reconciler, however long it has been waiting. -/
theorem wakeup_held_back : ∃ (system : System) (row : JobRow),
    System.Reachable (transaction demo) Anything system ∧
      system.world.rows.job (newID 3) = some row ∧ row.state = .queued ∧
      ¬ system.world.rows.Announced (newID 3) row ∧
      row.updatedAt < system.world.clock - seconds 60 ∧
      stranded system.world.clock system.world.rows (newID 3) row = false := by
  obtain ⟨w, hrun, hany⟩ := (Option.any_eq_true _ _).mp demoSwept_stuck
  obtain ⟨row, hrow, hstuck⟩ := (Option.any_eq_true _ _).mp hany
  simp only [Bool.and_eq_true, decide_eq_true_eq, Option.isNone_iff_eq_none,
    Bool.not_eq_true'] at hstuck
  obtain ⟨⟨⟨hqueued, hnone⟩, hgrace⟩, hheld⟩ := hstuck
  have hserial : Serial (transaction demo) w := Serial.serve (.initial 0) hrun
  refine ⟨⟨w, ∅⟩, row, hserial.reachable fun _ _ _ => trivial, hrow, hqueued, ?_, hgrace, hheld⟩
  rintro ⟨sent, hsent, _⟩
  exact absurd hsent (by rw [hnone]; simp)

end Tracewake.Hosted
