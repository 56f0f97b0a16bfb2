import Tracewake.Hosted.AuthoritativeResult
import Tracewake.Hosted.WorkerEffects

/-!
# Leases and overlapping heartbeats

A heartbeat sets the lease to one minute after its transaction began, whatever the lease
was before. When heartbeats of one attempt overlap, the one that began first may commit
last. It then takes back a part of the lease that another heartbeat has already promised
to the worker.
-/

namespace Tracewake.Hosted

open ReadCommitted

variable {s : Service} {w w' : World} {job : Uuid} {n : ℤ}

/-- A call that has ended is a heartbeat of the attempt that returned a lease. -/
def Renewed (job : Uuid) (n : ℤ) (lease : Timestamp) (f : Finished Call Err Reply) : Prop :=
  (∃ jobID token, f.call = .heartbeat jobID n token ∧ Uuid.parse jobID = some job) ∧
    f.result = .ok (.time lease)

/-- A heartbeat of the attempt commits from one world to the next. -/
structure Renews (w w' : World) (job : Uuid) (n : ℤ) (f : Finished Call Err Reply)
    (old new : AttemptRow) : Prop where
  ended : w'.history = f :: w.history
  before : w.rows.attempt job n = some old
  after : w'.rows.attempt job n = some new
  renewed : Renewed job n new.leaseExpiresAt f

/-- Every heartbeat that the schedule lets commit next leaves the lease at least as long
as it was. -/
def LeaseExtended (s : Service) (allowed : System → Event Call → Prop) (system : System) : Prop :=
  ∀ event system', allowed system event → System.step (transaction s) event system = some system' →
    ∀ job n f old new, Renews system.world system'.world job n f old new →
      old.leaseExpiresAt ≤ new.leaseExpiresAt

/-- No lease that a heartbeat has returned is later than the stored lease of the attempt. -/
def LeaseTrusted (w : World) : Prop :=
  ∀ f ∈ w.history, ∀ job n lease, Renewed job n lease f →
    ∃ row, w.rows.attempt job n = some row ∧ lease ≤ row.leaseExpiresAt

/-- The session is no heartbeat that began before the last heartbeat of its attempt. -/
def Timely (σ : Session) (w : World) : Prop :=
  ∀ jobID n token job attempt, σ.call = .heartbeat jobID n token → Uuid.parse jobID = some job →
    w.rows.attempt job n = some attempt → attempt.heartbeatAt ≤ σ.now

/-- Heartbeats of one attempt commit in the order in which they began. -/
def HeartbeatsInOrder (system : System) (event : Event Call) : Prop :=
  ∀ m t value, event = .run m → system.running.lookup m = some t → t.program = .pure value →
    Timely t.session system.world

/-- The lease of every attempt lasts one minute from its heartbeat. -/
def LeasesConsistent (w : World) : Prop :=
  ∀ job n row, w.rows.attempt job n = some row → row.Leased

section Commits

variable {σ : Session} {reply : Reply}

/-- What a commit does to an attempt: it changes it without its lease, or it is a
heartbeat of it. -/
theorem WorkerEffect.attempt (h : WorkerEffect s σ reply w) (job : Uuid) (n : ℤ) :
    KeepsLease (w.rows.attempt job n) ((σ.after w).attempt job n) ∨
      ∃ jobID token attempt, σ.call = .heartbeat jobID n token ∧ Uuid.parse jobID = some job ∧
        w.rows.attempt job n = some attempt ∧
        (σ.after w).attempt job n = some (attempt.beat σ.now) ∧
        reply = .time (σ.now + seconds 60) := by
  by_cases hcall : σ.call.Quiet
  · exact .inl (h.quiet hcall (.attempt job n))
  cases hsame : σ.call with
  | heartbeat jobID m token =>
    obtain ⟨other, row, attempt, hparse, hholds, hreply, hview, hothers⟩ :=
      h.heartbeat jobID m token hsame
    by_cases hne : job = other
    · subst hne
      have hattempts := congrFun (congrArg JobView.attempts hview) n
      by_cases hnm : n = m
      · subst hnm
        refine .inr ⟨jobID, token, attempt, rfl, hparse, hholds.running.found, ?_, hreply⟩
        exact hattempts.trans (Function.update_self ..)
      · left
        have hkept : (σ.after w).attempt job n = w.rows.attempt job n :=
          hattempts.trans (Function.update_of_ne hnm ..)
        rw [hkept]
        exact .same _
    · left
      have hkept : (σ.after w).attempt job n = w.rows.attempt job n :=
        congrFun (congrArg JobView.attempts (hothers job hne)) n
      rw [hkept]
      exact .same _
  | updateProgress jobID m token progress =>
    obtain ⟨other, row, attempt, stored, _, _, ⟨hview, hothers⟩, _⟩ :=
      h.report jobID m token progress hsame
    left
    have hkept : (σ.after w).attempt job n = w.rows.attempt job n := by
      by_cases hne : job = other
      · subst hne
        exact congrFun (congrArg JobView.attempts hview) n
      · exact congrFun (congrArg JobView.attempts (hothers job hne)) n
    rw [hkept]
    exact .same _
  | _ =>
    rw [hsame] at hcall
    exact absurd trivial hcall

/-- A heartbeat that returned a lease has set it. -/
theorem WorkerEffect.renewed (h : WorkerEffect s σ reply w) {lease : Timestamp}
    (hrenewed : Renewed job n lease ⟨σ.call, σ.now, w.clock, .ok reply⟩) :
    ∃ attempt, w.rows.attempt job n = some attempt ∧
      (σ.after w).attempt job n = some (attempt.beat σ.now) ∧ lease = σ.now + seconds 60 := by
  obtain ⟨⟨jobID, token, hcall, hparse⟩, hresult⟩ := hrenewed
  obtain rfl : reply = .time lease := Except.ok.inj hresult
  obtain ⟨job', row, attempt, hparse', hholds, hreply, hview, _⟩ := h.heartbeat jobID n token hcall
  obtain rfl := Option.some.inj (hparse.symm.trans hparse')
  refine ⟨attempt, hholds.running.found, ?_, Reply.time.inj hreply⟩
  exact (congrFun (congrArg JobView.attempts hview) n).trans (Function.update_self ..)

end Commits

section Moves

variable {permits : Session → World → Prop}

/-- Every change of the world keeps each lease at one minute from its heartbeat. -/
theorem LeasesConsistent.moves (hmove : (workerContract unrestricted s permits).Moves w w')
    (h : LeasesConsistent w) : LeasesConsistent w' := by
  cases hmove with
  | tick n => exact h
  | draw => exact h
  | refuse σ error herror => exact h
  | commit σ reply _ _ hguar =>
    intro job n row hrow
    rcases hguar.2.attempt job n with hkeeps | ⟨_, _, attempt, _, _, _, hbeat, _⟩
    · exact hkeeps.leased (h job n) row hrow
    · obtain rfl := Option.some.inj (hbeat.symm.trans hrow)
      rfl

/-- A heartbeat extends the lease exactly if it began after the one before. -/
theorem extended_iff_of_moves (hmove : (workerContract unrestricted s permits).Moves w w')
    (h : LeasesConsistent w) {f : Finished Call Err Reply} {old new : AttemptRow}
    (hrenews : Renews w w' job n f old new) :
    old.leaseExpiresAt ≤ new.leaseExpiresAt ↔ old.heartbeatAt ≤ f.now := by
  have hgrown : w'.history ≠ w.history := fun hsame =>
    absurd (congrArg List.length (hsame.symm.trans hrenews.ended)) (by simp)
  cases hmove with
  | tick n => exact absurd rfl hgrown
  | draw => exact absurd rfl hgrown
  | refuse σ error herror =>
    obtain ⟨rfl, _⟩ := List.cons.inj hrenews.ended
    cases hrenews.renewed.2
  | commit σ reply _ _ hguar =>
    obtain ⟨rfl, _⟩ := List.cons.inj hrenews.ended
    obtain ⟨attempt, hattempt, hbeat, _⟩ := hguar.2.renewed hrenews.renewed
    obtain rfl := Option.some.inj (hattempt.symm.trans hrenews.before)
    obtain rfl := Option.some.inj (hbeat.symm.trans hrenews.after)
    have hleased : attempt.leaseExpiresAt = attempt.heartbeatAt + seconds 60 :=
      h job n attempt hattempt
    rw [hleased]
    exact add_le_add_iff_right (seconds 60)

/-- Where heartbeats are in order, a commit keeps every lease that was returned. -/
theorem LeaseTrusted.moves (hmove : (workerContract unrestricted s Timely).Moves w w')
    (hleased : LeasesConsistent w) (h : LeaseTrusted w) : LeaseTrusted w' := by
  cases hmove with
  | tick n => exact h
  | draw => exact h
  | refuse σ error herror =>
    intro f hf job n lease hrenewed
    rcases List.mem_cons.mp hf with rfl | hf
    · cases hrenewed.2
    · exact h f hf job n lease hrenewed
  | commit σ reply _ hpermits hguar =>
    intro f hf job n lease hrenewed
    rcases List.mem_cons.mp hf with rfl | hf
    · obtain ⟨attempt, _, hbeat, rfl⟩ := hguar.2.renewed hrenewed
      exact ⟨_, hbeat, le_rfl⟩
    obtain ⟨old, hold, hbefore⟩ := h f hf job n lease hrenewed
    rcases hguar.2.attempt job n with
      hkeeps | ⟨jobID, token, attempt, hcall, hparse, hattempt, hbeat, _⟩
    · obtain ⟨new, hnew, hsame⟩ := hkeeps.some hold
      exact ⟨new, hnew, hbefore.trans_eq hsame.leaseExpiresAt.symm⟩
    · obtain rfl := Option.some.inj (hattempt.symm.trans hold)
      have htimely := hpermits.2 jobID n token job attempt hcall hparse hattempt
      refine ⟨_, hbeat, ?_⟩
      calc lease
        _ ≤ attempt.leaseExpiresAt := hbefore
        _ = attempt.heartbeatAt + seconds 60 := hleased job n attempt hattempt
        _ ≤ σ.now + seconds 60 := (add_le_add_iff_right (seconds 60)).mpr htimely

end Moves

/-- Heartbeats are in order where the schedule says so. -/
theorem timely_schedules (s : Service) :
    (workerContract unrestricted s Timely).Schedules HeartbeatsInOrder where
  start _ _ _ _ := False.elim
  permits _ m t value hallowed ht hvalue := ⟨False.elim, hallowed m t value rfl ht hvalue⟩
  apart _ _ _ _ _ _ _ _ _ _ _ := ⟨False.elim, False.elim⟩

/-- The empty database has no lease. -/
theorem leasesConsistent_initial (clock : Timestamp) :
    LeasesConsistent (World.initial clock : World) :=
  fun job n _ hrow => nomatch (AList.lookup_empty (Key.attempt job n)).symm.trans hrow

/-- A heartbeat that commits leaves the lease at least as long as it was exactly if it began
no earlier than the heartbeat stored before it. Where heartbeats commit in the order in
which they began, every one of them does, and the lease that it has returned is never
later than the stored one from then on. -/
theorem lease_monotone (s : Service) :
    (∀ system, System.Reachable (transaction s) Anything system → ∀ event system',
      System.step (transaction s) event system = some system' → ∀ job n f old new,
      Renews system.world system'.world job n f old new →
      (old.leaseExpiresAt ≤ new.leaseExpiresAt ↔ old.heartbeatAt ≤ f.now)) ∧
    ∀ system, System.Reachable (transaction s) HeartbeatsInOrder system →
      LeaseExtended s HeartbeatsInOrder system ∧ LeaseTrusted system.world := by
  constructor
  · intro system h event system' hstep job n f old new hrenews
    have hverified := worker_verified unrestricted s fun _ _ => True
    have hconsistent : LeasesConsistent system.world :=
      hverified.invariant (worker_schedules s) leasesConsistent_initial
        (fun _ _ _ hmove _ hleased => hleased.moves hmove) h
    have hsound := hverified.sound (worker_schedules s) h
    have hanything : Anything system event := trivial
    rcases hsound.moves (worker_schedules s) hanything hstep with hsame | hmove
    · exact absurd (congrArg (fun w : World => w.history.length) hsame) (by simp [hrenews.ended])
    · exact extended_iff_of_moves hmove hconsistent hrenews
  · intro system h
    have hverified := worker_verified unrestricted s Timely
    have hboth : LeasesConsistent system.world ∧ LeaseTrusted system.world :=
      hverified.invariant (timely_schedules s)
        (P := fun w => LeasesConsistent w ∧ LeaseTrusted w)
        (fun clock => ⟨leasesConsistent_initial clock, fun _ hf => nomatch hf⟩)
        (fun _ _ _ hmove _ hw => ⟨hw.1.moves hmove, hw.2.moves hmove hw.1⟩) h
    refine ⟨fun event system' hallowed hstep job n f old new hrenews => ?_, hboth.2⟩
    have hsound := hverified.sound (timely_schedules s) h
    rcases hsound.moves (timely_schedules s) hallowed hstep with hsame | hmove
    · exact absurd (congrArg (fun w : World => w.history.length) hsame) (by simp [hrenews.ended])
    refine (extended_iff_of_moves hmove hboth.1 hrenews).mpr ?_
    generalize system'.world = w' at hmove hrenews
    cases hmove with
    | tick n => exact absurd (congrArg List.length hrenews.ended) (by simp)
    | draw => exact absurd (congrArg List.length hrenews.ended) (by simp)
    | refuse σ error herror =>
      obtain ⟨rfl, _⟩ := List.cons.inj hrenews.ended
      cases hrenews.renewed.2
    | commit σ reply _ hpermits hguar =>
      obtain ⟨rfl, _⟩ := List.cons.inj hrenews.ended
      obtain ⟨⟨jobID, token, hcall, hparse⟩, _⟩ := hrenews.renewed
      exact hpermits.2 jobID n token job old hcall hparse hrenews.before

/-- A heartbeat of the attempt of the demonstration. -/
def demoHeartbeat : Call := .heartbeat (newID 3).text 1 "token"

/-- Whether a call that has ended is a heartbeat of that attempt that returned the lease. -/
def demoReturned (lease : Timestamp) (f : Finished Call Err Reply) : Bool :=
  match f.call, f.result with
  | .heartbeat jobID n _, .ok (.time time) => jobID = (newID 3).text && n = 1 && time = lease
  | _, _ => false

/-- The test of a finished call finds the heartbeats of the attempt that returned the
lease. -/
theorem renewed_of_demoReturned {lease : Timestamp} {f : Finished Call Err Reply}
    (h : demoReturned lease f = true) : Renewed (newID 3) 1 lease f := by
  unfold demoReturned at h
  split at h
  · next jobID n token time hcall hresult =>
    simp only [Bool.and_eq_true, decide_eq_true_eq] at h
    obtain ⟨⟨rfl, rfl⟩, rfl⟩ := h
    exact ⟨⟨_, token, hcall, by decide +kernel⟩, hresult⟩
  · cases h

/-- In the example a heartbeat renews a lease. -/
theorem demoHeartbeat_renews :
    (((World.initial 0 : World).serve (transaction demo) demoValidation).any fun w =>
      (w.rows.attempt (newID 3) 1).any (fun attempt => attempt.heartbeatAt ≤ w.clock) &&
      (w.perform (transaction demo) demoHeartbeat).any fun w' =>
        w'.history.head?.any (demoReturned 60000000)) = true := by
  decide +kernel

/-- A call that is no heartbeat may be served alone. -/
theorem heartbeatsInOrder_alone {call : Call}
    (hcall : ∀ jobID n token, call ≠ .heartbeat jobID n token) :
    System.AllowsAlone HeartbeatsInOrder call where
  start _ _ _ _ hevent := nomatch hevent
  run w τ p hsame := by
    rintro m t value ⟨⟩ ht _ jobID n token job attempt hheartbeat
    obtain rfl := Option.some.inj ((System.solo_lookup w 0 τ p).symm.trans ht)
    exact absurd (hsame.symm.trans hheartbeat) (hcall jobID n token)

/-- The heartbeat of the demonstration may run alone after the one before. -/
theorem heartbeatsInOrder_demo {attempt : AttemptRow}
    (hattempt : w.rows.attempt (newID 3) 1 = some attempt) (hbefore : attempt.heartbeatAt ≤ w.clock)
    {w₁ : World} {τ : Session} (p : Tx Reply) (hstore : w₁.store = w.store)
    (hcall : τ.call = demoHeartbeat) (hnow : τ.now = w.clock) :
    HeartbeatsInOrder (System.solo w₁ 0 τ p) (.run 0) := by
  rintro m t value ⟨⟩ ht _ jobID n token job stored hheartbeat hparse hstored
  obtain rfl := Option.some.inj ((System.solo_lookup w₁ 0 τ p).symm.trans ht)
  obtain ⟨rfl, rfl, rfl⟩ := Call.heartbeat.inj (hcall.symm.trans hheartbeat)
  have hjob : Uuid.parse (newID 3).text = some (newID 3) := by decide +kernel
  obtain rfl := Option.some.inj (hjob.symm.trans hparse)
  have hsame : w₁.rows = w.rows := hstore
  have hkept : w.rows.attempt (newID 3) 1 = some stored := by
    rw [← hsame]
    exact hstored
  obtain rfl := Option.some.inj (hattempt.symm.trans hkept)
  rw [hnow]
  exact hbefore

/-- After a claim and a heartbeat the lease that was returned is the stored one. -/
theorem lease_monotone_renewed : ∃ system : System, (∃ f ∈ system.world.history,
      Renewed (newID 3) 1 60000000 f) ∧ LeaseTrusted system.world := by
  obtain ⟨w, hrun, hany⟩ := (Option.any_eq_true _ _).mp demoHeartbeat_renews
  rw [Bool.and_eq_true] at hany
  obtain ⟨attempt, hattempt, hbefore⟩ := (Option.any_eq_true _ _).mp hany.1
  obtain ⟨w', hperform, hend⟩ := (Option.any_eq_true _ _).mp hany.2
  obtain ⟨f, hf, hreturned⟩ := (Option.any_eq_true _ _).mp hend
  have hcalls : ∀ entry ∈ demoValidation, System.AllowsAlone HeartbeatsInOrder entry.1 := by
    intro entry hentry
    refine heartbeatsInOrder_alone fun jobID n token hheartbeat => ?_
    simp only [demoValidation, List.mem_cons, List.not_mem_nil, or_false] at hentry
    rcases hentry with rfl | rfl | rfl <;> cases hheartbeat
  have hready : System.Reachable (transaction demo) HeartbeatsInOrder ⟨w, ∅⟩ :=
    (System.Reachable.initial 0).serve hcalls (fun _ _ _ _ _ hevent => nomatch hevent) hrun
  have hreachable : System.Reachable (transaction demo) HeartbeatsInOrder ⟨w', ∅⟩ := by
    apply hready.performed _ _ hperform
    · exact fun _ _ _ hevent => nomatch hevent
    · intro w₁ τ p hstore hcall hnow
      exact heartbeatsInOrder_demo hattempt (of_decide_eq_true hbefore) p hstore hcall hnow
  exact ⟨⟨w', ∅⟩, ⟨f, List.mem_of_mem_head? hf, renewed_of_demoReturned hreturned⟩,
    ((lease_monotone demo).2 _ hreachable).2⟩

/-- Two heartbeats, of which the second begins a second later and commits first. -/
def demoOvertaken : List (Event Call) :=
  .start 0 demoHeartbeat :: .tick 1000000 :: .start 1 demoHeartbeat ::
    List.replicate 8 (.run 1) ++ List.replicate 7 (.run 0)

/-- In the example the heartbeat that began first commits last and shortens the lease. -/
theorem demoOvertaken_shortens :
    (((World.initial 0 : World).serve (transaction demo) demoValidation).any fun w =>
      (System.execute (transaction demo) demoOvertaken ⟨w, ∅⟩).any fun system =>
        (System.step (transaction demo) (.run 0) system).any fun system' =>
          (system.world.rows.attempt (newID 3) 1).any (·.leaseExpiresAt = 61000000) &&
          (system'.world.rows.attempt (newID 3) 1).any (·.leaseExpiresAt = 60000000) &&
          system.world.history.head?.any (demoReturned 61000000) &&
          system'.world.history.head?.any (demoReturned 60000000)) = true := by
  decide +kernel

/-- A heartbeat that is overtaken shortens the lease that the other one has returned. -/
theorem lease_shortened :
    (¬ ∀ system, System.Reachable (transaction demo) Anything system →
      LeaseExtended demo Anything system) ∧
    ¬ ∀ system, System.Reachable (transaction demo) Anything system →
      LeaseTrusted system.world := by
  obtain ⟨w, hrun, hany⟩ := (Option.any_eq_true _ _).mp demoOvertaken_shortens
  obtain ⟨system, hexecute, hany⟩ := (Option.any_eq_true _ _).mp hany
  obtain ⟨system', hstep, hend⟩ := (Option.any_eq_true _ _).mp hany
  simp only [Bool.and_eq_true] at hend
  obtain ⟨⟨⟨hold, hnew⟩, hearlier⟩, hlater⟩ := hend
  obtain ⟨old, hold, holdLease⟩ := (Option.any_eq_true _ _).mp hold
  obtain ⟨new, hnew, hnewLease⟩ := (Option.any_eq_true _ _).mp hnew
  obtain ⟨f, hf, hreturned⟩ := (Option.any_eq_true _ _).mp hearlier
  obtain ⟨f', hf', hreturned'⟩ := (Option.any_eq_true _ _).mp hlater
  simp only [decide_eq_true_eq] at holdLease hnewLease
  have hserial : Serial (transaction demo) w := Serial.serve (.initial 0) hrun
  have hfirst : System.Reachable (transaction demo) Anything ⟨w, ∅⟩ :=
    hserial.reachable fun _ _ _ => trivial
  have hreachable : System.Reachable (transaction demo) Anything system :=
    hfirst.execute (System.AllowedRun.of_all (fun _ _ => trivial) _ _) hexecute
  have hanything : Anything system (.run 0) := trivial
  have hreachable' : System.Reachable (transaction demo) Anything system' :=
    hreachable.step hanything hstep
  have hgrown : system'.world.history = f' :: system.world.history := by
    have hsound := (worker_verified unrestricted demo fun _ _ => True).sound (worker_schedules demo)
      hreachable
    have hdiffer : system'.world.history ≠ system.world.history := by
      intro hsame
      rw [hsame, hf] at hf'
      obtain rfl := Option.some.inj hf'
      have hlease := (renewed_of_demoReturned hreturned).2.symm.trans
        (renewed_of_demoReturned hreturned').2
      simp at hlease
    rcases hsound.moves (worker_schedules demo) hanything hstep with hsame | hmove
    · exact absurd (congrArg World.history hsame) hdiffer
    obtain ⟨g, hg⟩ := hmove.history.resolve_left hdiffer
    rw [hg] at hf' ⊢
    rw [show g = f' from Option.some.inj hf']
  have hmem : f ∈ system'.world.history := by
    rw [hgrown]
    exact List.mem_cons_of_mem _ (List.mem_of_mem_head? hf)
  constructor
  · intro h
    have hle := h system hreachable (.run 0) system' trivial hstep (newID 3) 1 f' old new
      ⟨hgrown, hold, hnew, hnewLease ▸ renewed_of_demoReturned hreturned'⟩
    rw [holdLease, hnewLease] at hle
    exact absurd hle (by decide)
  · intro h
    obtain ⟨row, hrow, hle⟩ := h system' hreachable' f hmem (newID 3) 1 61000000
      (renewed_of_demoReturned hreturned)
    obtain rfl := Option.some.inj (hnew.symm.trans hrow)
    rw [hnewLease] at hle
    exact absurd hle (by decide)

end Tracewake.Hosted
