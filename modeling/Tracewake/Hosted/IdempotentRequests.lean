import Tracewake.Hosted.WakeUps

/-!
# Idempotent job requests

A job request that names a key in use returns the job of the earlier request or reports
a conflict. The key's record expires, but its row stays until a sweep removes it, and two
requests can overlap: then a request fails that should have succeeded.
-/

namespace Tracewake.Hosted

open ReadCommitted

variable {s : Service} {workspace : Uuid} {key : String}

/-- How long a record of a request is valid. -/
abbrev validity : Timestamp := seconds (24 * 3600)

/-- A request under the key that has created a job. -/
def created (workspace : Uuid) (key : String) (f : Finished Call Err Reply) : Bool :=
  match f.call, f.result with
  | .createJob workspace' key' _ _ _, .ok (.job _ false) => workspace' = workspace ∧ key' = key
  | _, _ => false

/-- The test of a finished call finds the requests under the key that inserted a job. -/
theorem created_iff {f : Finished Call Err Reply} : created workspace key f = true ↔
    ∃ request randomInput randomJob job,
      f.call = .createJob workspace key request randomInput randomJob ∧
      f.result = .ok (.job job false) := by
  unfold created
  split
  · next workspace' key' request randomInput randomJob job hcall hresult =>
    simp only [Bool.decide_and, Bool.and_eq_true, decide_eq_true_eq, hcall, hresult]
    constructor
    · rintro ⟨rfl, rfl⟩
      exact ⟨request, randomInput, randomJob, job, rfl, rfl⟩
    · rintro ⟨_, _, _, _, hsame, _⟩
      obtain ⟨rfl, rfl, _⟩ := Call.createJob.inj hsame
      exact ⟨rfl, rfl⟩
  · next hother =>
    refine ⟨fun h => by simp at h, ?_⟩
    rintro ⟨request, randomInput, randomJob, job, hcall, hresult⟩
    exact absurd hresult (hother workspace key request randomInput randomJob job hcall)

/-- The record of the key that a request has left. -/
def Leaves (s : Service) (workspace : Uuid) (key : String) (record : IdempotencyRow)
    (f : Finished Call Err Reply) : Prop :=
  ∃ request randomInput randomJob job operation,
    f.call = .createJob workspace key request randomInput randomJob ∧
    f.result = .ok (.job job false) ∧ record.responseID = job.id ∧
    normalizedDigest s request = .ok (operation, record.requestDigest) ∧
    record.expiresAt = f.now + validity

/-- The creations under one key: each is out of date before the next one commits. -/
structure CreatedApart (s : Service) (workspace : Uuid) (key : String) (w : World) : Prop where
  apart : (w.history.filter (created workspace key)).Pairwise
    fun later earlier => earlier.now + validity ≤ later.ended
  past : w.rows.idempotency workspace key = none →
    ∀ f ∈ w.history.filter (created workspace key), f.now + validity ≤ w.clock
  recorded : ∀ record, w.rows.idempotency workspace key = some record →
    ∃ f earlier, w.history.filter (created workspace key) = f :: earlier ∧
      Leaves s workspace key record f ∧ ∀ g ∈ earlier, g.now + validity ≤ w.clock

section Moves

variable {p : Policy} {w w' : World}

/-- A move that creates nothing under the key keeps its creations apart. -/
theorem CreatedApart.keep (h : CreatedApart s workspace key w)
    (hfilter : w'.history.filter (created workspace key) = w.history.filter (created workspace key))
    (hclock : w.clock ≤ w'.clock)
    (hrows : w'.rows.idempotency workspace key = w.rows.idempotency workspace key ∨
      w'.rows.idempotency workspace key = none ∧
        ∀ record, w.rows.idempotency workspace key = some record → record.expiresAt ≤ w'.clock) :
    CreatedApart s workspace key w' := by
  have hlast : ∀ record, w.rows.idempotency workspace key = some record →
      record.expiresAt ≤ w'.clock →
      ∀ f ∈ w.history.filter (created workspace key), f.now + validity ≤ w'.clock := by
    intro record hrecord hexpired f hf
    obtain ⟨g, earlier, hhistory, ⟨_, _, _, _, _, _, _, _, _, hexpires⟩, hearlier⟩ :=
      h.recorded record hrecord
    rw [hhistory] at hf
    rcases List.mem_cons.mp hf with rfl | hf
    · exact hexpires ▸ hexpired
    · exact (hearlier f hf).trans hclock
  refine ⟨by rw [hfilter]; exact h.apart, fun hnone f hf => ?_, fun record hrecord => ?_⟩
  · rw [hfilter] at hf
    cases hold : w.rows.idempotency workspace key with
    | none => exact (h.past hold f hf).trans hclock
    | some record =>
      rcases hrows with hsame | ⟨_, hexpired⟩
      · exact absurd (hsame.symm.trans hnone) (by simp [hold])
      · exact hlast record hold (hexpired record hold) f hf
  · rcases hrows with hsame | ⟨hnone, _⟩
    · obtain ⟨f, earlier, hhistory, hleaves, hearlier⟩ := h.recorded record (hsame.symm.trans hrecord)
      exact ⟨f, earlier, hfilter.trans hhistory, hleaves, fun g hg => (hearlier g hg).trans hclock⟩
    · simp [hnone] at hrecord

/-- Insertions under one key stay a day apart, whatever happens next. -/
theorem CreatedApart.move (h : CreatedApart s workspace key w)
    (hmove : (contract p s).Moves w w') : CreatedApart s workspace key w' := by
  cases hmove with
  | tick n => exact h.keep rfl (by simp) (.inl rfl)
  | draw => exact h.keep rfl le_rfl (.inl rfl)
  | refuse σ error _ =>
    refine h.keep ?_ le_rfl (.inl rfl)
    rw [World.refuse_history, List.filter_cons_of_neg]
    rw [created_iff]
    rintro ⟨_, _, _, _, _, hresult⟩
    cases hresult
  | commit σ reply _ _ hguar =>
    have hguar : Guarantee p s σ reply w := hguar
    have heffect : Effect p s σ reply w := hguar.effect
    by_cases hcreated : created workspace key ⟨σ.call, σ.now, w.clock, .ok reply⟩ = true
    · obtain ⟨request, randomInput, randomJob, job, hcall, hresult⟩ := created_iff.mp hcreated
      obtain rfl : reply = .job job false := Except.ok.inj hresult
      have hcreate : σ.call = .createJob workspace key request randomInput randomJob := hcall
      rw [Effect, hcreate] at heffect
      obtain ⟨operation, digest, hdigest, hnew⟩ := heffect
      simp only [Bool.false_eq_true, if_false] at hnew
      obtain ⟨hnone, _, _, _, hrecord⟩ := hnew
      have hpast := h.past hnone
      refine ⟨?_, fun hgone => ?_, fun record hfound => ?_⟩
      · rw [World.commit_history, List.filter_cons_of_pos hcreated]
        exact List.pairwise_cons.mpr ⟨hpast, h.apart⟩
      · exact absurd (hrecord.symm.trans hgone) (by simp)
      · obtain rfl := Option.some.inj (hrecord.symm.trans hfound)
        refine ⟨⟨σ.call, σ.now, w.clock, .ok (.job job false)⟩, _, ?_, ⟨request, randomInput,
          randomJob, job, operation, hcreate, rfl, rfl, hdigest, rfl⟩, hpast⟩
        rw [World.commit_history, List.filter_cons_of_pos hcreated]
    · refine h.keep ?_ le_rfl ?_
      · rw [World.commit_history, List.filter_cons_of_neg hcreated]
      · cases hold : w.rows.idempotency workspace key with
        | some record =>
          rcases hguar.recordsKept workspace key record hold with hkept | ⟨hgone, hexpired⟩
          · exact .inl hkept
          · refine .inr ⟨hgone, fun record' hsame => ?_⟩
            obtain rfl := Option.some.inj hsame
            exact hexpired.trans hguar.time
        | none =>
          refine .inl ?_
          by_contra hne
          obtain ⟨record, hrecord⟩ := Option.ne_none_iff_exists'.mp hne
          obtain ⟨⟨request, randomInput, randomJob, hcreate⟩, _⟩ :=
            hguar.recordsNew workspace key record hold hrecord
          rw [Effect, hcreate] at heffect
          cases reply with
          | job job reused =>
            obtain ⟨_, _, _, hcases⟩ := heffect
            cases reused with
            | true =>
              have hsame := hcases.1 (.idempotency workspace key)
              exact hne (hsame.trans hold)
            | false =>
              refine hcreated (created_iff.mpr ⟨request, randomInput, randomJob, job, hcreate, rfl⟩)
          | _ => exact heffect

end Moves

/-- A job request begins when no expired record of its key is left, its identifiers are
new, and no other request under its key commits a job while it is served. -/
def KeysApart (system : System) : Event Call → Prop
  | .start _ call => KeyedStart call system.world
  | .run n => ∀ t value, system.running.lookup n = some t → t.program = .pure value →
    ∀ m u, m ≠ n → system.running.lookup m = some u →
      KeyedApart u.session.call t.session system.world
  | _ => True

/-- The policy of a schedule that keeps the requests under one key apart. -/
abbrev keyedPolicy : Policy := ⟨False, True, False⟩

/-- A schedule that keeps the calls under one key apart meets the policy. -/
theorem keysApart_schedules (s : Service) : (contract keyedPolicy s).Schedules KeysApart where
  start _ _ _ h := fun _ => h
  permits _ _ _ _ _ _ _ := False.elim
  apart _ _ t value h ht hvalue := fun m u hne hu =>
    ⟨False.elim, fun _ => h t value ht hvalue m u hne hu⟩

/-- A record that was there when a call began is there until it expires. -/
theorem record_since {system : System} (h : System.Reachable (transaction s) KeysApart system)
    {n : ℕ} {t : Transaction Row Call Err Reply} (ht : system.running.lookup n = some t)
    {record : IdempotencyRow} (hrecord : t.session.before.idempotency workspace key = some record) :
    system.world.rows.idempotency workspace key = some record ∨
      record.expiresAt ≤ system.world.clock := by
  have hverified := verified keyedPolicy s
  refine hverified.since (keysApart_schedules s) (Q := fun origin w =>
    ∀ record, Store.idempotency origin workspace key = some record →
      w.rows.idempotency workspace key = some record ∨ record.expiresAt ≤ w.clock)
    (fun w _ record hrecord => .inl hrecord) ?_ h ht record hrecord
  intro origin w w' _ hmove hbefore record hrecord
  rcases hbefore record hrecord with hkept | hexpired
  · cases hmove with
    | tick k => exact .inl hkept
    | draw => exact .inl hkept
    | refuse _ _ _ => exact .inl hkept
    | commit σ reply _ _ hguar =>
      have hguar : Guarantee keyedPolicy s σ reply w := hguar
      rcases hguar.recordsKept workspace key record hkept with hsame | ⟨_, hgone⟩
      · exact .inl hsame
      · exact .inr (hgone.trans hguar.time)
  · have hclock : w.clock ≤ w'.clock := by
      cases hmove with
      | tick k => simp
      | _ => exact le_rfl
    exact .inr (hexpired.trans hclock)

/-- A call that finds its key in use writes nothing: it returns the job of the record, or
it reports a conflict if the record is that of another request. -/
def ReusesJob (old new : Store) (record : IdempotencyRow) (digest : String)
    (f : Finished Call Err Reply) : Prop :=
  (∀ k, new.lookup k = old.lookup k) ∧
    if record.requestDigest = digest then
      ∃ job, f.result = .ok (.job job true) ∧ job.id = record.responseID
    else f.result = .error .idempotencyConflict

/-- A call creates exactly one job, the one that it returns. -/
def CreatesJob (old new : Store) (workspace : Uuid) (f : Finished Call Err Reply) : Prop :=
  ∃ job, f.result = .ok (.job job false) ∧ old.job job.id = none ∧
    (∃ row, new.job job.id = some row ∧ row.workspace = workspace) ∧
    ∀ other, old.job other = none → new.job other ≠ none → other = job.id

section Ending

variable {system system' : System} {n : ℕ} {t : Transaction Row Call Err Reply}
  {f : Finished Call Err Reply} {request : JobRequest} {randomInput randomJob : BitVec 128}
  {operation : Operation} {digest : String}

/-- How a job request ends: it gives its effect, or its error has the declared meaning. -/
theorem create_job_ends (h : System.Reachable (transaction s) KeysApart system)
    (hends : system.Ends n t f system')
    (hcall : t.session.call = .createJob workspace key request randomInput randomJob) :
    (∃ job reused, f.result = .ok (.job job reused) ∧
      system'.world.store = t.session.view system.world.store ∧
      Guarantee keyedPolicy s t.session (.job job reused) system.world ∧
      CreateEffect keyedPolicy s system.world.rows (t.session.after system.world) t.session
        system.world.clock workspace key request randomJob job reused) ∨
    ∃ error, f.result = .error error ∧ system'.world.store = system.world.store ∧
      Refusal keyedPolicy s t.session error system.world := by
  have hsound := (verified keyedPolicy s).sound (keysApart_schedules s) h
  have hwp := hsound.verified n t hends.running
  rcases hends.cases.2 with ⟨reply, hpure, hresult, hstore⟩ | ⟨error, hfail, hresult, hstore⟩
  · rw [hpure] at hwp
    have hguar : Guarantee keyedPolicy s t.session reply system.world :=
      (Contract.wp_pure_iff.mp hwp system.world .refl hsound.inv (fun hpatient => hpatient.elim)).1
    have heffect := hguar.effect
    rw [Effect, hcall] at heffect
    cases reply with
    | job job reused => exact .inl ⟨job, reused, hresult, hstore, hguar, heffect⟩
    | _ => exact heffect.elim
  · rw [hfail] at hwp
    exact .inr ⟨error, hresult, hstore, Contract.wp_fail_iff.mp hwp system.world .refl hsound.inv⟩

/-- A request whose key is remembered returns the job of the record if it asks for the same,
and is refused if it does not. -/
theorem reuses_job (h : System.Reachable (transaction s) KeysApart system)
    (hends : system.Ends n t f system')
    (hcall : t.session.call = .createJob workspace key request randomInput randomJob)
    (hvalid : ValidRequest s key request operation digest) {record : IdempotencyRow}
    (hremembers : Session.Remembers t.session system.world.clock workspace key record) :
    ReusesJob system.world.rows system'.world.rows record digest f := by
  rcases create_job_ends h hends hcall with
    ⟨job, reused, hresult, hstore, _, operation', digest', hdigest, hcases⟩ |
      ⟨error, hresult, hstore, hrefusal⟩
  · obtain ⟨rfl, rfl⟩ := Prod.mk.inj (Except.ok.inj (hvalid.digest.symm.trans hdigest))
    cases reused with
    | true =>
      obtain ⟨hsame, _, hrecord⟩ := hcases
      obtain ⟨hdigest', hid⟩ := hrecord record hremembers
      refine ⟨fun k => ?_, ?_⟩
      · rw [show system'.world.rows = t.session.after system.world from hstore]
        exact hsame k
      · rw [if_pos hdigest']
        exact ⟨job, hresult, hid⟩
    | false =>
      rcases record_since h hends.running hremembers.1 with hkept | hexpired
      · exact absurd (hcases.1.symm.trans hkept) (by simp)
      · exact absurd hremembers.2 (not_lt.mpr hexpired)
  · obtain ⟨rfl, hdiffers⟩ := hrefusal.reuse workspace key request randomInput randomJob operation
      digest record hcall hvalid hremembers
    refine ⟨fun k => ?_, ?_⟩
    · rw [show system'.world.rows = system.world.rows from hstore]
    · rw [if_neg hdiffers]
      exact hresult

/-- When a request began, no expired record of its key was left. -/
theorem no_expired_record (h : System.Reachable (transaction s) KeysApart system)
    (ht : system.running.lookup n = some t)
    (hcall : t.session.call = .createJob workspace key request randomInput randomJob)
    {record : IdempotencyRow} (hrecord : t.session.before.idempotency workspace key = some record) :
    t.session.now < record.expiresAt := by
  have hstart : ∀ workspace key request randomInput randomJob,
      t.session.call = .createJob workspace key request randomInput randomJob →
      ∀ record, t.session.before.idempotency workspace key = some record →
        t.session.now < record.expiresAt := by
    refine System.Reachable.opened (P := fun call now origin =>
      ∀ workspace key request randomInput randomJob,
        call = .createJob workspace key request randomInput randomJob →
        ∀ record, Store.idempotency origin workspace key = some record → now < record.expiresAt)
      (fun system n call hallowed => ?_) h ht
    rintro workspace key request randomInput randomJob rfl
    exact hallowed.1
  exact hstart workspace key request randomInput randomJob hcall record hrecord

/-- A request whose key is not remembered inserts a job. -/
theorem creates_job (h : System.Reachable (transaction s) KeysApart system)
    (hends : system.Ends n t f system')
    (hcall : t.session.call = .createJob workspace key request randomInput randomJob)
    (hvalid : ValidRequest s key request operation digest)
    (hexpired : ∀ record, t.session.before.idempotency workspace key = some record →
      record.expiresAt ≤ t.session.now)
    (hbefore : ∀ runID ∈ request.runIDs, t.session.before.ReadyRun workspace runID)
    (hready : ∀ runID ∈ request.runIDs, system.world.rows.ReadyRun workspace runID) :
    CreatesJob system.world.rows system'.world.rows workspace f := by
  have hnone : t.session.before.idempotency workspace key = none := by
    by_contra hsome
    obtain ⟨record, hrecord⟩ := Option.ne_none_iff_exists'.mp hsome
    have hlt := no_expired_record h hends.running hcall hrecord
    exact absurd (hexpired record hrecord) (not_le.mpr hlt)
  rcases create_job_ends h hends hcall with
    ⟨job, reused, hresult, hstore, hguar, _, _, _, hcases⟩ | ⟨error, hresult, hstore, hrefusal⟩
  · have hrows : system'.world.rows = t.session.after system.world := hstore
    cases reused with
    | true => exact absurd hnone (hcases.2.1 trivial)
    | false =>
      obtain ⟨_, _, hnew, ⟨row, hrow, hworkspace⟩, _⟩ := hcases
      refine ⟨job, hresult, hnew, ⟨row, by rw [hrows]; exact hrow, hworkspace⟩, ?_⟩
      intro other hother hsome
      rw [hrows] at hsome
      exact hguar.oneNewJob other job.id hother hsome hnew (by simp [hrow])
  · exact absurd hready (hrefusal.create trivial workspace key request randomInput randomJob operation
      digest hcall hvalid hnone hbefore)

end Ending

/-- Where requests under one key are kept apart and expired records are swept before their
key is used again, job requests are idempotent. -/
theorem create_job_idempotent {system : System}
    (h : System.Reachable (transaction s) KeysApart system) :
    (∀ workspace key, (system.world.history.filter (created workspace key)).Pairwise
      fun later earlier => earlier.now + validity ≤ later.ended) ∧
    (∀ workspace key record, system.world.rows.idempotency workspace key = some record →
      ∃ f ∈ system.world.history, Leaves s workspace key record f) ∧
    ∀ n t f system' workspace key request randomInput randomJob operation digest,
      system.Ends n t f system' →
      t.session.call = .createJob workspace key request randomInput randomJob →
      ValidRequest s key request operation digest →
      (∀ record, Session.Remembers t.session system.world.clock workspace key record →
        ReusesJob system.world.rows system'.world.rows record digest f) ∧
      ((∀ record, t.session.before.idempotency workspace key = some record →
          record.expiresAt ≤ t.session.now) →
        (∀ runID ∈ request.runIDs, t.session.before.ReadyRun workspace runID) →
        (∀ runID ∈ request.runIDs, system.world.rows.ReadyRun workspace runID) →
        CreatesJob system.world.rows system'.world.rows workspace f) := by
  have happart : ∀ workspace key, CreatedApart s workspace key system.world := by
    intro workspace key
    refine (verified keyedPolicy s).invariant (keysApart_schedules s) (fun clock => ?_)
      (fun w w' _ hmove _ hbefore => hbefore.move hmove) h
    refine ⟨by simp [World.initial], fun _ => by simp [World.initial], fun record hrecord => ?_⟩
    exact absurd hrecord (by simp [Store.idempotency, World.initial, World.rows])
  refine ⟨fun workspace key => (happart workspace key).apart, fun workspace key record hrecord => ?_,
    fun n t f system' workspace key request randomInput randomJob operation digest hends hcall hvalid =>
      ⟨fun record hremembers => reuses_job h hends hcall hvalid hremembers, ?_⟩⟩
  · obtain ⟨f, earlier, hhistory, hleaves, _⟩ := (happart workspace key).recorded record hrecord
    exact ⟨f, List.mem_of_mem_filter (hhistory ▸ List.mem_cons_self), hleaves⟩
  · exact creates_job h hends hcall hvalid

/-- One open session is apart from all others. -/
theorem keysApart_run {system : System} {n : ℕ} (h : system.running.entries.length ≤ 1) :
    KeysApart system (.run n) :=
  fun _ _ ht _ _ _ hne hu => absurd (one_session h ht hu) hne

/-- A call that requests no job may be served alone. -/
theorem keysApart_alone {call : Call} (hcall : ∀ workspace key request randomInput randomJob,
    call ≠ .createJob workspace key request randomInput randomJob) :
    System.AllowsAlone KeysApart call where
  start w := by
    cases call with
    | createJob workspace key request randomInput randomJob =>
      exact absurd rfl (hcall workspace key request randomInput randomJob)
    | _ => trivial
  run w τ p _ := keysApart_run (by simp [System.solo_entries])

/-- A run is uploaded and found valid. -/
def demoReady : List (Call × ℕ) :=
  demoValidation ++ [(.completeAttempt (newID 3).text 1 "token" demoCompletion 60, 0)]

/-- A request for the analysis of that run. -/
def demoRequest : JobRequest := ⟨"otlp", [(newID 1).text], none⟩

/-- In the example the first request inserts a job and its record. -/
theorem demoRequest_created :
    (((World.initial 0 : World).serve (transaction demo) demoReady).any fun w =>
      (w.rows.idempotency 7 "key").isNone && (w.rows.input (newID 70)).isNone &&
        (w.rows.job (newID 71)).isNone &&
          (w.perform (transaction demo) (.createJob 7 "key" demoRequest 70 71)).any fun w' =>
            (w'.rows.idempotency 7 "key").isSome) = true := by
  decide +kernel

/-- A job request leaves a record of its key. -/
theorem create_job_idempotent_created : ∃ (system : System) (record : IdempotencyRow),
    system.world.rows.idempotency 7 "key" = some record ∧
      ∃ f ∈ system.world.history, Leaves demo 7 "key" record f := by
  obtain ⟨w, hrun, hany⟩ := (Option.any_eq_true _ _).mp demoRequest_created
  simp only [Bool.and_eq_true, Option.isNone_iff_eq_none] at hany
  obtain ⟨⟨⟨hnone, hinput⟩, hjob⟩, hcreated⟩ := hany
  obtain ⟨w', hperform, hsome⟩ := (Option.any_eq_true _ _).mp hcreated
  obtain ⟨record, hrecord⟩ := Option.isSome_iff_exists.mp hsome
  have hcalls : ∀ entry ∈ demoReady, System.AllowsAlone KeysApart entry.1 := by
    intro entry hentry
    refine keysApart_alone fun workspace key request randomInput randomJob hcreate => ?_
    simp only [demoReady, demoValidation, List.cons_append, List.nil_append, List.mem_cons,
      List.not_mem_nil, or_false] at hentry
    rcases hentry with rfl | rfl | rfl | rfl <;> cases hcreate
  have hready : System.Reachable (transaction demo) KeysApart ⟨w, ∅⟩ :=
    (System.Reachable.initial 0).serve hcalls (fun _ _ => trivial) hrun
  have hstart : KeysApart ⟨w, ∅⟩ (.start 0 (.createJob 7 "key" demoRequest 70 71)) :=
    ⟨fun record hrecord => absurd (hnone.symm.trans hrecord) (by simp), hinput, hjob⟩
  have hopen := hready.step hstart rfl
  have hreachable : System.Reachable (transaction demo) KeysApart ⟨w', ∅⟩ :=
    System.Reachable.alone (fun w τ p _ _ _ => keysApart_run (by simp [System.solo_entries]))
      hopen hperform
  exact ⟨⟨w', ∅⟩, record, hrecord, (create_job_idempotent hreachable).2.1 7 "key" record hrecord⟩

/-- The same request is made again when its record has expired and has not been swept. It
is about to end. -/
def demoRepeated : List (Event Call) :=
  .start 0 (.createJob 7 "key" demoRequest 80 81) :: List.replicate 12 (.run 0)

/-- Whether the transaction fails that serves the repeated request. -/
def failsRepeated (t : Transaction Row Call Err Reply) : Bool :=
  match t.program, t.session.call with
  | .fail _, .createJob workspace key request randomInput randomJob =>
    workspace = 7 && key = "key" && request = demoRequest && randomInput = 80 && randomJob = 81
  | _, _ => false

/-- Whether the run of the request is ready. -/
def readyDemo (store : Store) : Bool :=
  (store.run (newID 1)).any fun row => row.workspace = 7 && row.state = .ready

/-- In the example the same request fails a day later, although its runs are ready. -/
theorem demoRepeated_fails :
    (((World.initial 0 : World).serve (transaction demo)
      (demoReady ++ [(.createJob 7 "key" demoRequest 70 71, 25 * 3600 * 1000000)])).any fun w =>
      (System.execute (transaction demo) demoRepeated ⟨w, ∅⟩).any fun system =>
        (system.running.lookup 0).any fun t => failsRepeated t && readyDemo system.world.rows &&
          readyDemo t.session.before && (t.session.before.idempotency 7 "key").all
            fun record => record.expiresAt ≤ t.session.now) = true := by
  decide +kernel

/-- A valid request over a ready run fails although its key has no unexpired record. -/
theorem expired_record_refused : ∃ (system system' : System) (t : Transaction Row Call Err Reply)
    (f : Finished Call Err Reply) (digest : String),
    System.Reachable (transaction demo) Anything system ∧ system.Ends 0 t f system' ∧
      t.session.call = .createJob 7 "key" demoRequest 80 81 ∧
      ValidRequest demo "key" demoRequest .otlp digest ∧
      (∀ record, t.session.before.idempotency 7 "key" = some record →
        record.expiresAt ≤ t.session.now) ∧
      (∀ runID ∈ demoRequest.runIDs, t.session.before.ReadyRun 7 runID) ∧
      (∀ runID ∈ demoRequest.runIDs, system.world.rows.ReadyRun 7 runID) ∧
      ¬ CreatesJob system.world.rows system'.world.rows 7 f := by
  obtain ⟨w, hrun, hany⟩ := (Option.any_eq_true _ _).mp demoRepeated_fails
  obtain ⟨system, hexecute, hopen⟩ := (Option.any_eq_true _ _).mp hany
  obtain ⟨⟨σ, program⟩, ht, hfails⟩ := (Option.any_eq_true _ _).mp hopen
  simp only [Bool.and_eq_true, Option.all_eq_true, decide_eq_true_eq] at hfails
  obtain ⟨⟨⟨hfails, hready⟩, hbefore⟩, hexpired⟩ := hfails
  have hserial : Serial (transaction demo) w := Serial.serve (.initial 0) hrun
  have hreachable : System.Reachable (transaction demo) Anything ⟨w, ∅⟩ :=
    hserial.reachable fun _ _ _ => trivial
  have hruns : ∀ store : Store, readyDemo store = true →
      ∀ runID ∈ demoRequest.runIDs, store.ReadyRun 7 runID := by
    intro store hstore runID hrunID
    obtain rfl : runID = (newID 1).text := by simpa [demoRequest] using hrunID
    obtain ⟨found, hfound, hrow⟩ := (Option.any_eq_true _ _).mp hstore
    simp only [Bool.and_eq_true, decide_eq_true_eq] at hrow
    exact ⟨newID 1, found, by decide +kernel, hfound, hrow.1, hrow.2⟩
  have hvalid : ValidRequest demo "key" demoRequest .otlp (marshalJobRequest demoRequest) :=
    ⟨by decide +kernel, by decide +kernel, by rfl, by decide +kernel⟩
  unfold failsRepeated at hfails
  split at hfails
  · next error workspace key request randomInput randomJob hprogram hcall =>
    obtain rfl : program = .fail error := hprogram
    simp only [Bool.and_eq_true, decide_eq_true_eq] at hfails
    obtain ⟨⟨⟨⟨rfl, rfl⟩, rfl⟩, rfl⟩, rfl⟩ := hfails
    refine ⟨system, _, _, _, _,
      hreachable.execute (System.AllowedRun.of_all (fun _ _ => trivial) _ _) hexecute,
      ⟨ht, rfl, rfl⟩, hcall, hvalid, hexpired, hruns _ hbefore, hruns _ hready, ?_⟩
    rintro ⟨job, hresult, _⟩
    cases hresult
  · cases hfails

end Tracewake.Hosted
