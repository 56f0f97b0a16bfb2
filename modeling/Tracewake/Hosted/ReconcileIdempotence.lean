import Tracewake.Hosted.JobInvariant
import Tracewake.ReadCommitted.Confined

/-!
# Idempotent reconciliation

A reconcile pass that finds room for everything it looks for leaves nothing to the next pass at
the same time. Each job that it works on comes to rest, and every other job is as it was, so
that the next pass selects no row and writes none.
-/

namespace Tracewake.Hosted

open ReadCommitted

variable {s : Service} {σ : Session} {w : World} {S : Store} {now : Timestamp} {done : List Uuid}

/-! ## Jobs at rest -/

/-- No part of a reconcile pass selects a job with this row. -/
structure JobRow.Rests (row : JobRow) (now : Timestamp) : Prop where
  running : row.state ≠ .running
  due : row.due now = false
  queued : row.state = .queued → now - seconds 60 ≤ row.updatedAt

/-- A job that has just failed for now rests: its next retry lies ahead. -/
theorem JobRow.rests_retry (row : JobRow) {delay : Timestamp} (hdelay : 0 < delay) :
    (row.retry now delay).Rests now where
  running := by simp [JobRow.retry]
  due := by simp [JobRow.due, JobRow.retry, hdelay]
  queued h := by simp [JobRow.retry] at h

/-- A job that has just failed for good rests. -/
theorem JobRow.rests_fail (row : JobRow) (code message : String) :
    (row.fail now code message).Rests now where
  running := by simp [JobRow.fail]
  due := by simp [JobRow.due, JobRow.fail]
  queued h := by simp [JobRow.fail] at h

/-- A job that has just been queued again rests. -/
theorem JobRow.rests_requeue (row : JobRow) : (row.requeue now).Rests now where
  running := by simp [JobRow.requeue]
  due := by simp [JobRow.due, JobRow.requeue]
  queued _ := by simp [JobRow.requeue, seconds]

/-- A queued job that has just been announced again rests. -/
theorem JobRow.rests_republish {row : JobRow} (hqueued : row.state = .queued) :
    (row.republish now).Rests now where
  running := by simp [JobRow.republish, hqueued]
  due := by simp [JobRow.due, JobRow.republish, hqueued]
  queued _ := by simp [JobRow.republish, seconds]

/-- Every retry is delayed, whichever attempt it follows. -/
theorem backoff_pos (n : ℤ) : 0 < backoff n := by
  unfold backoff
  split <;> decide

/-! ## Where a pass stands -/

/-- The rows that a pass may change by working on some jobs. -/
def Touched (jobs : List Uuid) : Key → Prop
  | .job job | .attempt job _ | .outbox job _ => job ∈ jobs
  | .run _ | .audit _ => True
  | _ => False

/-- Keys that concern some jobs concern any more of them. -/
theorem Touched.mono {jobs jobs' : List Uuid} (h : jobs ⊆ jobs') {k : Key} (hk : Touched jobs k) :
    Touched jobs' k := by
  cases k with
  | job id => exact h hk
  | attempt id n => exact h hk
  | outbox id version => exact h hk
  | run id => trivial
  | audit id => trivial
  | _ => exact hk.elim

/-- A pass that began with the rows of `S` has brought some jobs to rest and has left the
others as they were. -/
structure Passed (S : Store) (now : Timestamp) (done : List Uuid) (σ : Session) (w : World) :
    Prop where
  kept : ∀ k, ¬ Touched done k → (σ.after w).lookup k = S.lookup k
  rests : ∀ job ∈ done, ∃ row, (σ.after w).job job = some row ∧ row.Rests now

namespace Passed

/-- A job that the pass has not reached is as it was. -/
theorem job (h : Passed S now done σ w) {job : Uuid} (hnew : job ∉ done) :
    (σ.after w).job job = S.job job := h.kept (.job job) hnew

/-- An attempt of a job that the pass has not reached is as it was. -/
theorem attempt (h : Passed S now done σ w) {job : Uuid} (hnew : job ∉ done) (n : ℤ) :
    (σ.after w).attempt job n = S.attempt job n := h.kept (.attempt job n) hnew

/-- A notification of a job that the pass has not reached is as it was. -/
theorem outbox (h : Passed S now done σ w) {job : Uuid} (hnew : job ∉ done) (version : ℤ) :
    (σ.after w).outbox job version = S.outbox job version := h.kept (.outbox job version) hnew

/-- No pass changes the input of a job. -/
theorem input (h : Passed S now done σ w) (row : JobRow) :
    (σ.after w).jobInput row = S.jobInput row := h.kept (.input row.input) id

/-- A job is worked on and comes to rest. -/
theorem step (h : Passed S now done σ w) {job : Uuid} {σ' : Session} {w' : World}
    (hnew : job ∉ done) (hconfined : Confined (Touched [job]) σ w σ' w') {row : JobRow}
    (hrow : (σ'.after w').job job = some row) (hrests : row.Rests now) :
    Passed S now (job :: done) σ' w' where
  kept k hk := by
    have hother : ¬ Touched [job] k := fun htouched => hk (htouched.mono (by simp))
    have hold : ¬ Touched done k := fun htouched => hk (htouched.mono (by simp))
    exact (hconfined.kept k hother).trans (h.kept k hold)
  rests other hother := by
    rcases List.mem_cons.mp hother with rfl | hmem
    · exact ⟨row, hrow, hrests⟩
    · obtain ⟨row', hrow', hrests'⟩ := h.rests other hmem
      have hne : ¬ Touched [job] (.job other) := by
        intro htouched
        obtain rfl := List.mem_singleton.mp htouched
        exact hnew hmem
      exact ⟨row', (hconfined.kept (.job other) hne).trans hrow', hrests'⟩

/-- What changes no row of a job changes nothing about where the pass stands. -/
theorem confined (h : Passed S now done σ w) {σ' : Session} {w' : World}
    (hconfined : Confined (Touched []) σ w σ' w') : Passed S now done σ' w' where
  kept k hk := by
    have hother : ¬ Touched [] k := fun htouched => hk (htouched.mono (by simp))
    exact (hconfined.kept k hother).trans (h.kept k hk)
  rests job hjob := by
    obtain ⟨row, hrow, hrests⟩ := h.rests job hjob
    exact ⟨row, (hconfined.kept (.job job) (by simp [Touched])).trans hrow, hrests⟩

end Passed

/-! ## Statements -/

section Statements

variable {post : Except Err Unit → Session → World → Prop}

/-- An audit record belongs to no job. -/
theorem runsTo_audit {workspace : Uuid} {aggregate : Aggregate} {eventType actorType : String}
    {actorID : Option Uuid} {payload : AuditPayload}
    (h : ∀ σ' w', Confined (Touched []) σ w σ' w' → post (.ok ()) σ' w') :
    (audit now workspace aggregate eventType actorType actorID payload).RunsTo post σ w := by
  refine ⟨Session.lock_locks_self σ _, h _ _ ?_⟩
  exact (Confined.draw.trans (.lock .exclusive _)).trans (.write trivial _)

/-- A notification under a key that is free is written, and nothing else is. -/
theorem runsTo_notify {context : String} {job : Uuid} {version : ℤ} {operation : Operation}
    (hfree : (σ.after w).outbox job version = none)
    (h : ∀ σ' w', Confined (· = Key.outbox job version) σ w σ' w' → post (.ok ()) σ' w') :
    (notify now context job version operation).RunsTo post σ w := by
  refine Program.runsTo_bind.mpr (Program.runsTo_insert hfree (h _ _ ?_))
  exact (Confined.draw.trans (.lock .exclusive _)).trans (.write_self (Key.outbox job version) _)

end Statements

/-! ## Expired attempts -/

/-- What is found for a job is an attempt of it whose lease has expired. -/
theorem expiredAttempt_some {job : Uuid} {entry : Timestamp × Expired}
    (h : expiredAttempt now S job = some entry) : entry.2.job = job ∧ ∃ row attempt,
      S.job job = some row ∧ S.attempt job entry.2.attempt = some attempt ∧
      leaseExpired now entry.2.attempt row attempt = true := by
  simp only [expiredAttempt, Option.bind_eq_bind, Option.bind_eq_some_iff] at h
  obtain ⟨row, hrow, n, hn, attempt, hattempt, input, hinput, hexpired⟩ := h
  split at hexpired
  · next hlease =>
    obtain rfl := Option.some.inj hexpired
    exact ⟨rfl, row, attempt, hrow, hattempt, hlease⟩
  · cases hexpired

/-- The expired attempts are what is found for their jobs. -/
theorem mem_expiredAttempts {entry : Timestamp × Expired} : entry ∈ expiredAttempts now S ↔
    expiredAttempt now S entry.2.job = some entry := by
  rw [expiredAttempts, List.mem_filterMap]
  constructor
  · rintro ⟨job, -, hentry⟩
    rwa [(expiredAttempt_some hentry).1]
  · intro hentry
    obtain ⟨-, row, -, hrow, -⟩ := expiredAttempt_some hentry
    exact ⟨entry.2.job, Store.mem_jobs.mpr (by simp [hrow]), hentry⟩

/-- At most one expired attempt is found for a job. -/
theorem expiredAttempts_jobs_nodup :
    ((expiredAttempts now S).map fun entry => entry.2.job).Nodup := by
  refine (Store.jobs_nodup S).sublist ?_
  rw [expiredAttempts]
  generalize S.jobs = jobs
  induction jobs with
  | nil => exact List.Sublist.refl _
  | cons job jobs ih =>
    cases hentry : expiredAttempt now S job with
    | none =>
      rw [List.filterMap_cons_none hentry]
      exact ih.cons job
    | some entry =>
      rw [List.filterMap_cons_some hentry, List.map_cons, (expiredAttempt_some hentry).1]
      exact ih.cons_cons job

/-- The expired attempts of a pass in the order of their leases. -/
def expiredItems (now : Timestamp) (store : Store) : List Expired :=
  ((expiredAttempts now store).mergeSort fun a b => a.1 ≤ b.1).map (·.2)

/-- The items are the expired attempts in another order. -/
theorem expiredItems_perm : (expiredItems now S).Perm ((expiredAttempts now S).map (·.2)) :=
  (List.mergeSort_perm _ _).map _

/-- All expired attempts are locked when they fit into the limit. -/
theorem runsTo_lockExpired {items : List Expired} {limit : ℕ}
    {post : Except Err (List Expired) → Session → World → Prop}
    (hitems : ∀ item ∈ items, ∃ row attempt, (σ.after w).job item.job = some row ∧
      (σ.after w).attempt item.job item.attempt = some attempt ∧
      leaseExpired now item.attempt row attempt = true) (hlimit : items.length ≤ limit)
    (h : ∀ σ', σ'.writes = σ.writes → post (.ok items) σ' w) :
    (lockExpired now items limit).RunsTo post σ w := by
  induction items generalizing σ limit post with
  | nil =>
    unfold lockExpired
    exact h σ rfl
  | cons item rest ih =>
    obtain ⟨limit, rfl⟩ : ∃ n, limit = n + 1 :=
      Nat.exists_eq_add_one_of_ne_zero (by simp only [List.length_cons] at hlimit; omega)
    obtain ⟨row, attempt, hrow, hattempt, hexpired⟩ := hitems item List.mem_cons_self
    have hrow : (σ.view w.store).lookup (.job item.job) = some row := hrow
    have hattempt : (σ.view w.store).lookup (.attempt item.job item.attempt) = some attempt :=
      hattempt
    unfold lockExpired Program.RunsTo
    simp only [hrow]
    unfold Program.RunsTo
    have hview : ((σ.lock .exclusive (.job item.job)).view w.store).lookup
        (.attempt item.job item.attempt) = some attempt := hattempt
    simp only [hview, Option.any_some, hexpired, if_true]
    refine Program.runsTo_bind.mpr (ih (fun other hother => ?_) ?_ fun σ' hwrites => ?_)
    · exact hitems other (List.mem_cons_of_mem item hother)
    · simp only [List.length_cons] at hlimit
      omega
    · exact h σ' hwrites

/-- An attempt and its job are changed so that the job comes to rest. What follows belongs to
no job. -/
theorem runsTo_end {job : Uuid} {n : ℤ} (h : Passed S now done σ w) (hnew : job ∉ done)
    {row : JobRow} {attempt : AttemptRow} (hrow : S.job job = some row)
    (hattempt : S.attempt job n = some attempt) {finish : AttemptRow → AttemptRow}
    {set : JobRow → JobRow} {ends : AttemptRow → Bool} {changes : JobRow → Bool} {rest : Tx Unit}
    (hends : ends attempt = true) (hchanges : changes row = true) (hrests : (set row).Rests now)
    (hrest : ∀ (σ : Session) (w : World), rest.RunsTo
      (fun result σ' w' => result = .ok () ∧ Confined (Touched []) σ w σ' w') σ w) :
    ((updateAttempt job n ends finish).bind fun _ =>
      (updateJob job changes set).bind fun _ => rest).RunsTo
        (fun result σ' w' => result = .ok () ∧ Passed S now (job :: done) σ' w') σ w := by
  refine Program.runsTo_bind.mpr (Program.runsTo_updateKey_confined
    ((h.attempt hnew n).trans hattempt) hends fun σ₁ w₁ h₁ _ => ?_)
  have hrow₁ : (σ₁.view w₁.store).lookup (.job job) = some row :=
    (h₁.kept (.job job) (by simp)).trans ((h.job hnew).trans hrow)
  refine Program.runsTo_bind.mpr (Program.runsTo_updateKey_confined hrow₁ hchanges
    fun σ₂ w₂ h₂ hchanged => ?_)
  refine (hrest σ₂ w₂).mono ?_
  rintro result σ' w' ⟨rfl, h₃⟩
  have hboth : Confined (Touched [job]) σ w σ₂ w₂ := by
    refine (h₁.mono ?_).trans (h₂.mono ?_)
    · rintro k rfl
      exact List.mem_singleton_self _
    · rintro k rfl
      exact List.mem_singleton_self _
  have hpassed : Passed S now (job :: done) σ₂ w₂ := h.step hnew hboth hchanged hrests
  exact ⟨rfl, hpassed.confined h₃⟩

/-- Invalidating runs changes no row of a job. -/
theorem runsTo_invalidateRun {find : Store → List Uuid} {code message : String}
    {post : Except Err (List ((_ : Uuid) × RunRow)) → Session → World → Prop}
    (h : ∀ invalidated σ' w', Confined (Touched []) σ w σ' w' → post (.ok invalidated) σ' w') :
    (invalidateRun find code message).RunsTo post σ w := by
  refine Program.runsTo_update fun invalidated σ' w' hconfined => ?_
  refine h invalidated σ' w' (hconfined.mono ?_)
  rintro k ⟨id, rfl⟩
  trivial

/-- An expired attempt is ended, and its job comes to rest. -/
theorem runsTo_fenceExpired {item : Expired} (h : Passed S now done σ w)
    (hnew : item.job ∉ done) {row : JobRow} {attempt : AttemptRow}
    (hrow : S.job item.job = some row) (hattempt : S.attempt item.job item.attempt = some attempt)
    (hexpired : leaseExpired now item.attempt row attempt = true) :
    (fenceExpired now item).RunsTo (fun result σ' w' =>
      result = .ok () ∧ Passed S now (item.job :: done) σ' w') σ w := by
  simp only [leaseExpired, Bool.and_eq_true, decide_eq_true_eq] at hexpired
  obtain ⟨⟨⟨hrunning, -⟩, hlive⟩, -⟩ := hexpired
  unfold fenceExpired
  split
  · refine runsTo_end h hnew hrow hattempt (by simp [hlive]) (by simp [hrunning])
      (JobRow.rests_retry row (backoff_pos _)) fun σ w => ?_
    refine Program.runsTo_bind.mpr (runsTo_audit fun σ₁ w₁ h₁ => ?_)
    exact runsTo_audit fun σ₂ w₂ h₂ => ⟨rfl, h₁.trans h₂⟩
  · refine runsTo_end h hnew hrow hattempt rfl rfl (JobRow.rests_fail row _ _) fun σ w => ?_
    refine Program.runsTo_bind.mpr (runsTo_audit fun σ₁ w₁ h₁ => ?_)
    refine Program.runsTo_bind.mpr (runsTo_invalidateRun fun invalidated σ₂ w₂ h₂ => ?_)
    cases invalidated with
    | nil => exact ⟨rfl, h₁.trans h₂⟩
    | cons found rest =>
      exact runsTo_audit fun σ₃ w₃ h₃ => ⟨rfl, (h₁.trans h₂).trans h₃⟩

/-- All expired attempts are ended. -/
theorem runsTo_fenceAll {items : List Expired} (h : Passed S now done σ w)
    (hnodup : (items.map Expired.job).Nodup) (hnew : ∀ item ∈ items, item.job ∉ done)
    (hitems : ∀ item ∈ items, ∃ row attempt, S.job item.job = some row ∧
      S.attempt item.job item.attempt = some attempt ∧
      leaseExpired now item.attempt row attempt = true) :
    (Program.forEach (fenceExpired now) items).RunsTo (fun result σ' w' => result = .ok () ∧
      Passed S now ((items.map Expired.job).reverse ++ done) σ' w') σ w := by
  refine Program.runsTo_forEach
    (fun fenced σ w => Passed S now ((fenced.map Expired.job).reverse ++ done) σ w) ?_ h
  intro fenced item rest σ w heq hpassed
  obtain ⟨row, attempt, hrow, hattempt, hexpired⟩ := hitems item (by simp [heq])
  have hfresh : item.job ∉ (fenced.map Expired.job).reverse ++ done := by
    have hnotDone := hnew item (by simp [heq])
    rw [heq, List.map_append, List.map_cons, List.nodup_append] at hnodup
    simp only [List.mem_append, List.mem_reverse, not_or]
    exact ⟨fun hmem => hnodup.2.2 _ hmem _ List.mem_cons_self rfl, hnotDone⟩
  refine (runsTo_fenceExpired hpassed hfresh hrow hattempt hexpired).mono ?_
  rintro result σ' w' ⟨rfl, hnext⟩
  exact ⟨rfl, by simpa using hnext⟩

/-! ## Announcements -/

/-- A stored notification is found by a scan of the outbox. -/
theorem Store.mem_outboxes {store : Store} {job : Uuid} {version : ℤ} {sent : OutboxRow}
    (hsent : store.outbox job version = some sent) : (job, version) ∈ store.outboxes := by
  refine (Store.mem_scan (fun key : Uuid × ℤ => .outbox key.1 key.2) fun k i => ?_).mpr ?_
  · cases k <;> simp [Prod.ext_iff, eq_comm]
  · change store.outbox job version ≠ none
    simp [hsent]

/-- Whether a job is stranded depends on its row and its own notifications. -/
theorem stranded_iff {store : Store} {job : Uuid} {row : JobRow} :
    stranded now store job row = true ↔ row.state = .queued ∧ row.updatedAt < now - seconds 60 ∧
      ∀ version sent, store.outbox job version = some sent →
        sent.publishedAt.isSome = true ∧ sent.createdAt ≤ now - seconds 60 := by
  simp only [stranded, Bool.and_eq_true, decide_eq_true_eq, List.all_eq_true, Bool.or_eq_true,
    Option.all_eq_true, and_assoc]
  refine and_congr_right fun _ => and_congr_right fun _ => ?_
  constructor
  · intro hall version sent hsent
    exact (hall _ (Store.mem_outboxes hsent)).resolve_left (by simp) sent hsent
  · rintro hall ⟨owner, version⟩ -
    by_cases howner : owner = job
    · subst howner
      exact .inr fun sent hsent => hall version sent hsent
    · exact .inl howner

/-- The jobs of a store whose rows satisfy a condition. -/
def eligibleJobs (eligible : Store → Uuid → JobRow → Bool) (store : Store) : List Uuid :=
  store.jobs.filter fun job => (store.job job).any (eligible store job)

/-- The eligible jobs are those that the statement's condition selects. -/
theorem mem_eligibleJobs {eligible : Store → Uuid → JobRow → Bool} {store : Store} {job : Uuid} :
    job ∈ eligibleJobs eligible store ↔
      ∃ row, store.job job = some row ∧ eligible store job row = true := by
  rw [eligibleJobs, List.mem_filter, Option.any_eq_true]
  constructor
  · rintro ⟨-, row, hrow, heligible⟩
    exact ⟨row, hrow, heligible⟩
  · rintro ⟨row, hrow, heligible⟩
    exact ⟨Store.mem_jobs.mpr (by simp [hrow]), row, hrow, heligible⟩

/-- No job is selected twice. -/
theorem eligibleJobs_nodup (eligible : Store → Uuid → JobRow → Bool) (store : Store) :
    (eligibleJobs eligible store).Nodup :=
  (Store.jobs_nodup store).filter _

/-- A condition on jobs that a change of their rows brings to rest. -/
structure Settles (now : Timestamp) (eligible : Store → Uuid → JobRow → Bool)
    (set : JobRow → JobRow) : Prop where
  own : ∀ {store store' : Store} {job row}, (∀ version, store.outbox job version =
    store'.outbox job version) → eligible store job row = eligible store' job row
  active : ∀ {store job row}, eligible store job row = true → ¬ row.Rests now
  rests : ∀ {store job row}, eligible store job row = true → (set row).Rests now

/-- Queueing due retries settles them: a queued job is no longer due. -/
theorem settles_due : Settles now (fun _ _ row => row.due now) (·.requeue now) where
  own _ := rfl
  active hdue hrests := by simp [hrests.due] at hdue
  rests {_ _ row} _ := row.rests_requeue

/-- Announcing stranded jobs settles them: a job that was just announced is not stranded. -/
theorem settles_stranded : Settles now (stranded now) (·.republish now) where
  own hsame := by
    rw [Bool.eq_iff_iff, stranded_iff, stranded_iff]
    simp only [hsame]
  active hstranded hrests := by
    obtain ⟨hqueued, hold, -⟩ := stranded_iff.mp hstranded
    exact absurd (hrests.queued hqueued) (not_le.mpr hold)
  rests hstranded := JobRow.rests_republish (stranded_iff.mp hstranded).1

section Announcements

variable {eligible : Store → Uuid → JobRow → Bool} {set : JobRow → JobRow} {eventType : String}
  {p : Policy}

/-- The jobs that satisfy the condition now satisfied it when the pass began. -/
theorem Passed.eligible_iff (h : Passed S now done σ w) (hsettles : Settles now eligible set)
    {job : Uuid} : job ∈ eligibleJobs eligible (σ.after w) ↔
      job ∈ eligibleJobs eligible S ∧ job ∉ done := by
  have hsame : job ∉ done → ∀ row, eligible (σ.after w) job row = eligible S job row :=
    fun hnew row => hsettles.own fun version => h.outbox hnew version
  rw [mem_eligibleJobs, mem_eligibleJobs]
  constructor
  · rintro ⟨row, hrow, heligible⟩
    have hnew : job ∉ done := by
      intro hdone
      obtain ⟨row', hrow', hrests⟩ := h.rests job hdone
      obtain rfl := Option.some.inj (hrow.symm.trans hrow')
      exact hsettles.active heligible hrests
    exact ⟨⟨row, (h.job hnew).symm.trans hrow, (hsame hnew row).symm.trans heligible⟩, hnew⟩
  · rintro ⟨⟨row, hrow, heligible⟩, hnew⟩
    exact ⟨row, (h.job hnew).trans hrow, (hsame hnew row).trans heligible⟩

/-- A job is announced, and comes to rest. -/
theorem runsTo_announce (hinv : Consistent p s S) (h : Passed S now done σ w) {store : Store}
    {job : Uuid} {row : JobRow} (hnew : job ∉ done) (hrow : S.job job = some row)
    (hinput : store.jobInput row = S.jobInput row)
    (hlocked : σ.locks (.job job) = some .exclusive) (hrests : (set row).Rests now) :
    (announce now store set eventType ⟨job, row⟩).RunsTo (fun result σ' w' => result = .ok () ∧
      Confined (Touched [job]) σ w σ' w' ∧ Passed S now (job :: done) σ' w') σ w := by
  obtain ⟨input, hfound, -⟩ := hinv.inputs job row hrow
  have hfree : S.outbox job (row.rowVersion + 1) = none := by
    rw [Option.eq_none_iff_forall_ne_some]
    intro sent hsent
    obtain ⟨row', _, hrow', hle, -⟩ := hinv.outbox job _ sent hsent
    obtain rfl := Option.some.inj (hrow.symm.trans hrow')
    omega
  simp only [announce, hinput, hfound]
  refine ⟨hlocked, Program.runsTo_bind.mpr (runsTo_audit fun σ₁ w₁ h₁ => ?_)⟩
  have hwritten : Confined (Touched [job]) σ w (σ.write (.job job) (some (set row))) w := by
    refine (Confined.write_self (Key.job job) _).mono ?_
    rintro k rfl
    exact List.mem_singleton_self _
  have hfree₁ : (σ₁.after w₁).outbox job (row.rowVersion + 1) = none := by
    refine (h₁.kept (.outbox job _) (by simp [Touched])).trans ?_
    refine (Session.view_write_ne σ _ w.store (by simp)).trans ?_
    exact (h.outbox hnew _).trans hfree
  refine runsTo_notify hfree₁ fun σ₂ w₂ h₂ => ⟨rfl, ?_⟩
  have hall : Confined (Touched [job]) σ w σ₂ w₂ := by
    refine (hwritten.trans (h₁.mono fun k hk => hk.mono (by simp))).trans (h₂.mono ?_)
    rintro k rfl
    exact List.mem_singleton_self _
  refine ⟨hall, h.step hnew hall ?_ hrests⟩
  have hkept₂ := h₂.kept (.job job) (by simp)
  have hkept₁ := h₁.kept (.job job) (by simp [Touched])
  exact (hkept₂.trans hkept₁).trans (Session.view_write_self σ (.job job) _ w.store)

/-- All jobs that satisfied the condition when the pass began are at rest. -/
theorem runsTo_announceAll (hinv : Consistent p s S) (h : Passed S now done σ w)
    (hsettles : Settles now eligible set) {limit : ℕ}
    (hlimit : (eligibleJobs eligible S).length ≤ limit) :
    ((Program.lockSkipping Key.job (eligible (σ.after w)) (eligibleJobs eligible (σ.after w))
      limit).bind fun found => (Program.forEach (announce now (σ.after w) set eventType)
        found).bind fun _ => .pure found.length).RunsTo
      (fun result σ' w' => ∃ count, result = .ok count ∧ ∃ done', Passed S now done' σ' w' ∧
        done ⊆ done' ∧ eligibleJobs eligible S ⊆ done') σ w := by
  have hsubset : eligibleJobs eligible (σ.after w) ⊆ eligibleJobs eligible S :=
    fun job hjob => ((h.eligible_iff hsettles).mp hjob).1
  have hfits : (eligibleJobs eligible (σ.after w)).length ≤ limit :=
    (List.subperm_of_subset (eligibleJobs_nodup _ _) hsubset).length_le.trans hlimit
  refine Program.runsTo_bind.mpr (Program.runsTo_lockSkipping ?_ hfits ?_)
  · intro job hjob
    exact (List.mem_filter.mp hjob).2
  · intro selected σ₁ hselected hwrites hlocks hrows
    have hview : ∀ store, σ₁.view store = σ.view store := fun store => by
      rw [Session.view, Session.view, hwrites]
    have hstart : Passed S now done σ₁ w :=
      ⟨fun k hk => by simpa only [Session.after, hview] using h.kept k hk,
        fun job hjob => by simpa only [Session.after, hview] using h.rests job hjob⟩
    refine Program.runsTo_bind.mpr ((Program.runsTo_forEach
      (fun announced σ' w' => Passed S now ((announced.map Sigma.fst).reverse ++ done) σ' w' ∧
        ∀ entry ∈ selected, σ'.locks (.job entry.1) = some .exclusive) ?_
      ⟨hstart, fun entry hentry => (hrows entry hentry).1⟩).mono ?_)
    · rintro announced ⟨job, row⟩ rest σ' w' heq ⟨hpassed, hlocked⟩
      have hmem : (⟨job, row⟩ : (_ : Uuid) × JobRow) ∈ selected := by simp [heq]
      have hjob : job ∈ eligibleJobs eligible (σ.after w) := by
        rw [← hselected]
        exact List.mem_map_of_mem hmem
      obtain ⟨row', hrow', heligible⟩ := mem_eligibleJobs.mp hjob
      have hrow : (σ.after w).job job = some row := (hrows _ hmem).2
      obtain rfl := Option.some.inj (hrow.symm.trans hrow')
      have hnotDone := ((h.eligible_iff hsettles).mp hjob).2
      have hfresh : job ∉ (announced.map Sigma.fst).reverse ++ done := by
        have hnodup := eligibleJobs_nodup eligible (σ.after w)
        rw [← hselected, heq, List.map_append, List.map_cons, List.nodup_append] at hnodup
        simp only [List.mem_append, List.mem_reverse, not_or]
        exact ⟨fun hmem => hnodup.2.2 _ hmem _ List.mem_cons_self rfl, hnotDone⟩
      refine (runsTo_announce hinv hpassed hfresh ((h.job hnotDone).symm.trans hrow)
        (h.input row) (hlocked _ hmem) (hsettles.rests heligible)).mono ?_
      rintro result σ'' w'' ⟨rfl, hconfined, hnext⟩
      refine ⟨rfl, by simpa using hnext, fun entry hentry => ?_⟩
      exact hconfined.locks _ (hlocked entry hentry)
    · rintro result σ' w' ⟨rfl, hpassed, -⟩
      refine ⟨_, rfl, _, hpassed, by simp, fun job hjob => ?_⟩
      rw [hselected]
      by_cases hdone : job ∈ done
      · exact List.mem_append_right _ hdone
      · refine List.mem_append_left _ (List.mem_reverse.mpr ?_)
        exact (h.eligible_iff hsettles).mpr ⟨hjob, hdone⟩

end Announcements

/-! ## Passes -/

/-- A reconcile pass finds nothing to do. -/
structure Idle (now : Timestamp) (store : Store) : Prop where
  expired : expiredAttempts now store = []
  due : eligibleJobs (fun _ _ row => row.due now) store = []
  stranded : eligibleJobs (stranded now) store = []

/-- What a pass looks for fits into its limit. -/
structure Fits (now : Timestamp) (limit : ℕ) (store : Store) : Prop where
  expired : (expiredAttempts now store).length ≤ limit
  due : (eligibleJobs (fun _ _ row => row.due now) store).length ≤ limit
  stranded : (eligibleJobs (stranded now) store).length ≤ limit

/-- When all jobs that a pass looks for are at rest there is nothing left to do. -/
theorem Passed.idle (h : Passed S now done σ w)
    (hexpired : ∀ entry ∈ expiredAttempts now S, entry.2.job ∈ done)
    (hdue : eligibleJobs (fun _ _ row => row.due now) S ⊆ done)
    (hstranded : eligibleJobs (stranded now) S ⊆ done) : Idle now (σ.after w) where
  expired := by
    rw [List.eq_nil_iff_forall_not_mem]
    intro entry hentry
    rw [mem_expiredAttempts] at hentry
    obtain ⟨-, row, attempt, hrow, -, hlease⟩ := expiredAttempt_some hentry
    simp only [leaseExpired, Bool.and_eq_true, decide_eq_true_eq] at hlease
    have hnew : entry.2.job ∉ done := by
      intro hdone
      obtain ⟨row', hrow', hrests⟩ := h.rests _ hdone
      obtain rfl := Option.some.inj (hrow.symm.trans hrow')
      exact hrests.running hlease.1.1.1
    have hsame : expiredAttempt now (σ.after w) entry.2.job =
        expiredAttempt now S entry.2.job := by
      simp only [expiredAttempt, h.job hnew, h.attempt hnew, h.input]
    exact hnew (hexpired entry (mem_expiredAttempts.mpr (hsame.symm.trans hentry)))
  due := by
    rw [List.eq_nil_iff_forall_not_mem]
    intro job hjob
    obtain ⟨hold, hnew⟩ := (h.eligible_iff settles_due).mp hjob
    exact hnew (hdue hold)
  stranded := by
    rw [List.eq_nil_iff_forall_not_mem]
    intro job hjob
    obtain ⟨hold, hnew⟩ := (h.eligible_iff settles_stranded).mp hjob
    exact hnew (hstranded hold)

/-- A pass with room for everything that it looks for leaves nothing to do. -/
theorem runsTo_reconcile {p : Policy} (hinv : Consistent p s S) {limit : ℤ}
    (hfits : Fits now (passLimit limit) S) (hstart : σ.after w = S) :
    (reconcile limit now).RunsTo
      (fun result σ' w' => (∃ count, result = .ok count) ∧ Idle now (σ'.after w')) σ w := by
  have hexpired : ∀ item ∈ expiredItems now S, ∃ row attempt, S.job item.job = some row ∧
      S.attempt item.job item.attempt = some attempt ∧
      leaseExpired now item.attempt row attempt = true := by
    intro item hitem
    obtain ⟨entry, hentry, rfl⟩ := List.mem_map.mp (expiredItems_perm.mem_iff.mp hitem)
    exact (expiredAttempt_some (mem_expiredAttempts.mp hentry)).2
  have hnodup : ((expiredItems now S).map Expired.job).Nodup := by
    rw [(expiredItems_perm.map Expired.job).nodup_iff, List.map_map]
    exact expiredAttempts_jobs_nodup
  have hlength : (expiredItems now S).length ≤ passLimit limit := by
    rw [expiredItems_perm.length_eq, List.length_map]
    exact hfits.expired
  have hview : σ.view w.store = S := hstart
  unfold reconcile
  refine Program.runsTo_bind.mpr ?_
  unfold Program.RunsTo
  rw [hview]
  refine runsTo_lockExpired (fun item hitem => ?_) hlength fun σ₁ hwrites => ?_
  · have hsame : σ.nextStatement.after w = S := hstart
    rw [hsame]
    exact hexpired item hitem
  have hlocked : Passed S now [] σ₁ w := by
    have hsame : σ₁.after w = S := by
      rw [Session.after, Session.view, hwrites]
      exact hstart
    exact ⟨fun k _ => by rw [hsame], by simp⟩
  refine Program.runsTo_bind.mpr ((runsTo_fenceAll hlocked hnodup (by simp) hexpired).mono ?_)
  rintro _ σ₂ w₂ ⟨rfl, hfenced⟩
  refine Program.runsTo_bind.mpr ((runsTo_announceAll hinv
    (hfenced.confined .nextStatement) settles_due hfits.due).mono ?_)
  rintro _ σ₃ w₃ ⟨enqueued, rfl, done₃, hqueued, hdone₃, hdue⟩
  refine Program.runsTo_bind.mpr ((runsTo_announceAll hinv
    (hqueued.confined .nextStatement) settles_stranded hfits.stranded).mono ?_)
  rintro _ σ₄ w₄ ⟨republished, rfl, done₄, hannounced, hdone₄, hstranded⟩
  refine ⟨⟨_, rfl⟩, hannounced.idle (fun entry hentry => ?_) ?_ hstranded⟩
  · apply hdone₄
    apply hdone₃
    simp only [List.append_nil, List.mem_reverse, List.mem_map]
    exact ⟨entry.2, expiredItems_perm.mem_iff.mpr (List.mem_map_of_mem hentry), rfl⟩
  · exact fun job hjob => hdone₄ (hdue hjob)

/-- Nothing is queued when no retry is due. -/
theorem runsTo_enqueueDue_idle {limit : ℕ}
    (hdue : eligibleJobs (fun _ _ row => row.due now) (σ.after w) = []) :
    (enqueueDue now limit).RunsTo (fun result σ' w' =>
      result = .ok 0 ∧ σ'.writes = σ.writes ∧ w'.store = w.store) σ w := by
  have hnone : (Store.jobs (σ.view w.store)).filter (fun job =>
    (Store.job (σ.view w.store) job).any (·.due now)) = [] := hdue
  unfold enqueueDue Program.RunsTo
  simp only [hnone, Program.lockSkipping]
  exact ⟨rfl, rfl, rfl⟩

/-- Nothing is announced again when no job is stranded. -/
theorem runsTo_republishStranded_idle {limit : ℕ}
    (hstranded : eligibleJobs (stranded now) (σ.after w) = []) :
    (republishStranded now limit).RunsTo (fun result σ' w' =>
      result = .ok 0 ∧ σ'.writes = σ.writes ∧ w'.store = w.store) σ w := by
  have hnone : (Store.jobs (σ.view w.store)).filter (fun job =>
    (Store.job (σ.view w.store) job).any (stranded now (σ.view w.store) job)) = [] := hstranded
  unfold republishStranded Program.RunsTo
  simp only [hnone, Program.lockSkipping]
  exact ⟨rfl, rfl, rfl⟩

/-- A pass that finds nothing to do changes no row. -/
theorem runsTo_reconcile_idle {limit : ℤ} (hidle : Idle now (σ.after w)) :
    (reconcile limit now).RunsTo (fun result σ' _ => result = .ok 0 ∧ σ'.writes = σ.writes) σ w := by
  have hexpired : expiredAttempts now (σ.view w.store) = [] := hidle.expired
  unfold reconcile
  refine Program.runsTo_bind.mpr ?_
  unfold Program.RunsTo
  simp only [hexpired, List.mergeSort_nil, List.map_nil, lockExpired]
  have hsame : σ.nextStatement.after w = σ.after w := rfl
  refine Program.runsTo_bind.mpr (Program.runsTo_bind.mpr ?_)
  refine (runsTo_enqueueDue_idle (hsame ▸ hidle.due)).mono ?_
  rintro _ σ₁ w₁ ⟨rfl, hwrites₁, hstore₁⟩
  have hsame₁ : σ₁.after w₁ = σ.after w := by
    rw [Session.after, Session.view, hwrites₁, hstore₁]
    rfl
  refine Program.runsTo_bind.mpr ((runsTo_republishStranded_idle
    (hsame₁ ▸ hidle.stranded)).mono ?_)
  rintro _ σ₂ w₂ ⟨rfl, hwrites₂, -⟩
  exact ⟨rfl, hwrites₂.trans hwrites₁⟩

/-- Reconciliation is idempotent: after a pass that finds room for everything it looks for, a
second pass at the same time leaves the rows as they are. -/
theorem reconcile_idempotent {system : System}
    (h : System.Reachable (transaction s) Anything system) (limit : ℤ)
    (hfits : Fits system.world.clock (passLimit limit) system.world.rows) :
    ∃ w₁ w₂ count, system.world.perform (transaction s) (.reconcile limit) = some w₁ ∧
      w₁.perform (transaction s) (.reconcile limit) = some w₂ ∧ w₂.rows = w₁.rows ∧
      w₁.history = ⟨.reconcile limit, system.world.clock, system.world.clock, .ok (.count count)⟩ ::
        system.world.history ∧
      w₂.history = ⟨.reconcile limit, system.world.clock, system.world.clock, .ok (.count 0)⟩ ::
        w₁.history := by
  have hinv : Consistent unrestricted s system.world.rows := (sound_of_reachable h).inv
  have hfirst : (transaction s (.reconcile limit) system.world.clock).RunsTo
      (fun result σ' w' => (∃ count, result = .ok (.count count)) ∧
        Idle system.world.clock (σ'.after w'))
      (.start (.reconcile limit) system.world.clock system.world.rows) system.world := by
    refine Program.runsTo_bind.mpr ((runsTo_reconcile hinv hfits
      (Session.view_of_writes_empty rfl _)).mono ?_)
    rintro _ σ' w' ⟨⟨count, rfl⟩, hidle⟩
    exact ⟨⟨count, rfl⟩, hidle⟩
  obtain ⟨_, σ₁, w', ⟨⟨count, rfl⟩, hidle⟩, hrun, -, hclock, hhistory, hnow, hcall⟩ := hfirst.alone
  have hsecond : (transaction s (.reconcile limit) system.world.clock).RunsTo
      (fun result σ' _ => result = .ok (.count 0) ∧ σ'.writes = ∅)
      (.start (.reconcile limit) system.world.clock (σ₁.after w'))
      (w'.commit σ₁ (.count count)) := by
    refine Program.runsTo_bind.mpr ((runsTo_reconcile_idle ?_).mono ?_)
    · rw [Session.after, Session.view_of_writes_empty rfl]
      exact hidle
    · rintro _ σ' w'' ⟨rfl, hwrites⟩
      exact ⟨rfl, hwrites⟩
  obtain ⟨_, σ₂, w'', ⟨rfl, hwrites⟩, hrun', hstore', hclock', hhistory', hnow', hcall'⟩ :=
    hsecond.alone
  refine ⟨_, w''.commit σ₂ (.count 0), count, hrun, ?_, ?_, ?_, ?_⟩
  · rw [World.perform]
    simp only [World.finish, World.commit_clock, World.commit_store, hclock]
    exact hrun'
  · rw [World.rows, World.commit_store, Session.view_of_writes_empty hwrites]
    exact hstore'
  · simp only [World.finish, World.commit_history, hnow, hcall, hclock, hhistory]
    rfl
  · simp only [World.commit_history, hnow', hcall', hclock', hhistory', World.commit_clock, hclock,
      World.finish]
    rfl

/-- The validation job of an upload is claimed, and its worker is not heard of for an hour. -/
def demoExpired : List (Call × ℕ) :=
  demoValidation ++ [(.nextNotification, 3600000000)]

/-- The example's rows stay below the limit of the pass. -/
theorem demoExpired_fits :
    (((World.initial 0 : World).serve (transaction demo) demoExpired).any fun w =>
      (expiredAttempts w.clock w.rows).length = 1 &&
        (eligibleJobs (fun _ _ row => row.due w.clock) w.rows).length ≤ 10 &&
        (eligibleJobs (stranded w.clock) w.rows).length ≤ 10) = true := by
  decide +kernel

/-- A pass ends the expired attempt, and the next one has nothing to do. -/
theorem reconcile_idempotent_expired : ∃ w w₁ w₂ : World,
    (expiredAttempts w.clock w.rows).length = 1 ∧
      w.perform (transaction demo) (.reconcile 10) = some w₁ ∧
      w₁.perform (transaction demo) (.reconcile 10) = some w₂ ∧ w₂.rows = w₁.rows := by
  obtain ⟨w, hrun, hany⟩ := (Option.any_eq_true _ _).mp demoExpired_fits
  simp only [Bool.and_eq_true, decide_eq_true_eq] at hany
  obtain ⟨⟨hexpired, hdue⟩, hstranded⟩ := hany
  have hserial : Serial (transaction demo) w := Serial.serve (.initial 0) hrun
  have hreachable : System.Reachable (transaction demo) Anything ⟨w, ∅⟩ :=
    hserial.reachable fun _ _ _ => trivial
  have hlimit : passLimit 10 = 10 := by decide
  obtain ⟨w₁, w₂, _, hfirst, hsecond, hsame, -⟩ := reconcile_idempotent hreachable 10
    ⟨by rw [hlimit]; exact hexpired.trans_le (by decide), by rw [hlimit]; exact hdue,
      by rw [hlimit]; exact hstranded⟩
  exact ⟨w, w₁, w₂, hexpired, hfirst, hsecond, hsame⟩

end Tracewake.Hosted
