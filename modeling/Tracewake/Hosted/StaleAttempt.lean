import Tracewake.Hosted.AuthoritativeResult

/-!
# Stale attempts

A worker that has lost its lease must be told so and must change nothing. The check of
an attempt is a function of the committed rows, which says exactly when this is so.
-/

namespace Tracewake.Hosted

open ReadCommitted

variable {s : Service} {w : World} {job : Uuid} {jobID token : String} {n : ℤ} {now : Timestamp}

/-- `attemptFailure`: the status and the code that a worker is answered. -/
def Err.attemptFailure : Err → ℕ × String
  | .invalidRequest _ => (400, "invalid_request")
  | .leaseLost | .conflict | .notFound => (409, "lease_lost")
  | _ => (503, "internal")

/-- The rows of the job's current, running, unexpired attempt with its own token. -/
def CurrentLease (s : Service) (store : Store) (job : Uuid) (n : ℤ) (token : String)
    (now : Timestamp) : Prop :=
  ∃ row attempt, store.job job = some row ∧ row.state = .running ∧
    row.currentAttemptNumber = some n ∧ store.attempt job n = some attempt ∧
    attempt.state = .running ∧ now < attempt.leaseExpiresAt ∧
    s.verify attempt.tokenPepperVersion token attempt.tokenVerifier = true

/-- The request names no current attempt. -/
def Stale (s : Service) (store : Store) (jobID : String) (n : ℤ) (token : String)
    (now : Timestamp) : Prop :=
  ∀ job, Uuid.parse jobID = some job → ¬ CurrentLease s store job n token now

/-- The attempt still has its lease and its runs, but its job has no attempt number. -/
def Unnumbered (store : Store) (job : Uuid) (n : ℤ) (now : Timestamp) : Prop :=
  ∃ row input attempt, store.job job = some row ∧ row.currentAttemptNumber = none ∧
    store.jobInput row = some input ∧ inputsUsable store input = true ∧
    store.attempt job n = some attempt ∧ now < attempt.leaseExpiresAt

/-- Cancellation of that same current attempt was requested. -/
def CancelRequested (s : Service) (store : Store) (jobID : String) (n : ℤ) (token : String) : Prop :=
  ∃ job row attempt, Uuid.parse jobID = some job ∧ store.job job = some row ∧
    row.currentAttemptNumber = some n ∧ store.attempt job n = some attempt ∧
    s.verify attempt.tokenPepperVersion token attempt.tokenVerifier = true ∧
    row.cancelRequestedAt.isSome = true

/-- What `checkAttempt` finds in the committed rows. -/
def judgeAttempt (s : Service) (store : Store) (job : Uuid) (n : ℤ) (token : String)
    (now : Timestamp) : Except Err CurrentAttempt :=
  match store.job job with
  | none => .error .leaseLost
  | some row =>
    match store.jobInput row, store.attempt job n with
    | some input, some attempt =>
      if now < attempt.leaseExpiresAt ∧ inputsUsable store input = true then
        match row.currentAttemptNumber with
        | none => .error (.database "read current attempt" .nullScan)
        | some current =>
          if row.state = .running ∧ attempt.state = .running ∧ current = n ∧
              s.verify attempt.tokenPepperVersion token attempt.tokenVerifier then
            .ok { job, workspace := row.workspace, operation := input.operation }
          else .error .leaseLost
      else .error .leaseLost
    | _, _ => .error .leaseLost

/-- The calls of a worker on one attempt that are otherwise well-formed. -/
inductive AttemptCall (jobID : String) (n : ℤ) (token : String) : Call → Prop
  | heartbeat : AttemptCall jobID n token (.heartbeat jobID n token)
  | updateProgress (progress : Progress) :
      (1 ≤ progress.sequence && lengthWithin progress.message 512 &&
        validProgressStage progress.stage) = true →
      AttemptCall jobID n token (.updateProgress jobID n token progress)
  | failAttempt (code message : String) (retryable : Bool) :
      (lengthWithin code 64 && lengthWithin message 512) = true →
      ((code ∈ permanentCodes || code ∈ retryableCodes) &&
        retryable = (code ∈ retryableCodes)) = true →
      AttemptCall jobID n token (.failAttempt jobID n token code message retryable)
  | completeAttempt (result : Completion) (random : BitVec 128) :
      AttemptCall jobID n token (.completeAttempt jobID n token result random)

/-- The call, served alone, reports a lost lease and changes no row. -/
def LosesLease (s : Service) (w : World) (call : Call) : Prop :=
  ∃ w' f, w.perform (transaction s) call = some w' ∧ w'.store = w.store ∧
    w'.history = f :: w.history ∧ f.call = call ∧
    ∃ error, f.result = .error error ∧ error = .leaseLost ∧
      error.attemptFailure = (409, "lease_lost")

/-- A call that is refused without a write. -/
theorem losesLease_iff_of_refuse {call : Call} {error : Err} (σ : Session) (hcall : σ.call = call)
    (h : w.perform (transaction s) call = some (w.refuse σ error)) :
    LosesLease s w call ↔ error = .leaseLost := by
  constructor
  · rintro ⟨w', f, hrun, _, hhistory, _, error', hresult, rfl, _⟩
    obtain rfl := Option.some.inj (h.symm.trans hrun)
    rw [World.refuse_history] at hhistory
    obtain ⟨rfl, _⟩ := List.cons.inj hhistory
    exact Except.error.inj hresult
  · rintro rfl
    exact ⟨_, _, h, rfl, rfl, hcall, .leaseLost, rfl, rfl, rfl⟩

/-- The comparison of the locked rows with the request. -/
theorem judge_alone {next : CurrentAttempt → Tx Reply} {σ : Session} {row : JobRow}
    {input : InputRow} {attempt : AttemptRow} (hlease : now < attempt.leaseExpiresAt) :
    ((checkAttempt.judge s n token now job row input attempt).bind next).alone σ w =
      match row.currentAttemptNumber with
      | none => some (w.refuse σ (.database "read current attempt" .nullScan))
      | some current =>
        if row.state = .running ∧ attempt.state = .running ∧ current = n ∧
            s.verify attempt.tokenPepperVersion token attempt.tokenVerifier then
          (next { job, workspace := row.workspace, operation := input.operation }).alone σ w
        else some (w.refuse σ .leaseLost) := by
  rw [checkAttempt.judge, if_neg (not_le.mpr hlease)]
  cases row.currentAttemptNumber with
  | none => rfl
  | some current =>
    dsimp only
    split <;> rfl

/-- The check of an attempt, alone, is a function of the committed rows. -/
theorem checkAttempt_alone (s : Service) (w : World) (token : String)
    (next : CurrentAttempt → Tx Reply) (call : Call) (hjob : Uuid.parse jobID = some job)
    (hn : fitsInteger n = true) : ∃ σ : Session,
    σ.call = call ∧
    ((checkAttempt s jobID n token w.clock).bind next).alone (.start call w.clock w.store) w =
      match judgeAttempt s w.rows job n token w.clock with
      | .error error => some (w.refuse σ error)
      | .ok current => (next current).alone σ w := by
  let fresh : Session := (Session.start call w.clock w.store).nextStatement
  simp only [checkAttempt, uuidParam, hjob, integerParam, require, hn, if_true, Program.bind_eq,
    Program.bind, Program.alone, Session.view_of_writes_empty (Session.start_writes _ _ _),
    judgeAttempt]
  cases hrow : Store.job w.rows job with
  | none => exact ⟨fresh, rfl, rfl⟩
  | some row =>
    cases hinput : Store.jobInput w.rows row with
    | none => exact ⟨fresh, rfl, by simp only [hinput]; rfl⟩
    | some input =>
      cases hattempt : Store.attempt w.rows job n with
      | none =>
        refine ⟨fresh, rfl, ?_⟩
        simp only [hinput, Option.any_none, Bool.false_and]
        rfl
      | some attempt =>
        by_cases husable : w.clock < attempt.leaseExpiresAt ∧ inputsUsable w.rows input = true
        · refine ⟨((fresh.lock .exclusive (.job job)).lock .exclusive (.input row.input)).lock
            .exclusive (.attempt job n), rfl, ?_⟩
          have hrow' : (fresh.view w.store).lookup (Key.job job) = some row := hrow
          have hinput' : ((fresh.lock .exclusive (.job job)).view w.store).lookup
              (Key.input row.input) = some input := hinput
          have hattempt' : (((fresh.lock .exclusive (.job job)).lock .exclusive
              (.input row.input)).view w.store).lookup (Key.attempt job n) = some attempt := hattempt
          simp only [hinput, Option.any_some, husable.1, husable.2, decide_true, Bool.and_self,
            if_true, Program.bind, Program.alone, and_self, fresh] at hrow' hinput' hattempt' ⊢
          simp only [hrow', hinput', hattempt']
          rw [judge_alone husable.1]
          cases row.currentAttemptNumber with
          | none => rfl
          | some current =>
            dsimp only
            split <;> rfl
        · refine ⟨fresh, rfl, ?_⟩
          have hfalse : (decide (w.clock < attempt.leaseExpiresAt) &&
              inputsUsable w.rows input) = false := by
            simpa using husable
          simp only [hinput, Option.any_some, hfalse, if_neg husable]
          rfl

/-- What the check of a stale attempt finds. -/
theorem judgeAttempt_of_stale (hjob : Uuid.parse jobID = some job)
    (hstale : Stale s w.rows jobID n token w.clock) : ∃ error,
    judgeAttempt s w.rows job n token w.clock = .error error ∧
      (error = .leaseLost ↔ ¬ Unnumbered w.rows job n w.clock) := by
  simp only [judgeAttempt]
  cases hrow : w.rows.job job with
  | none =>
    refine ⟨.leaseLost, rfl, fun _ => ?_, fun _ => rfl⟩
    rintro ⟨row, _, _, hrow', _⟩
    simp [hrow] at hrow'
  | some row =>
    cases hinput : w.rows.jobInput row with
    | none =>
      refine ⟨.leaseLost, by simp only [hinput], fun _ => ?_, fun _ => rfl⟩
      rintro ⟨row', input, _, hrow', _, hinput', _⟩
      obtain rfl := Option.some.inj (hrow.symm.trans hrow')
      simp [hinput] at hinput'
    | some input =>
      cases hattempt : w.rows.attempt job n with
      | none =>
        refine ⟨.leaseLost, by simp only [hinput], fun _ => ?_, fun _ => rfl⟩
        rintro ⟨_, _, attempt, _, _, _, _, hattempt', _⟩
        simp [hattempt] at hattempt'
      | some attempt =>
        simp only [hinput]
        by_cases husable : w.clock < attempt.leaseExpiresAt ∧ inputsUsable w.rows input = true
        · rw [if_pos husable]
          cases hcurrent : row.currentAttemptNumber with
          | none =>
            refine ⟨_, rfl, fun herror => by simp at herror, fun hnumbered => ?_⟩
            exact absurd ⟨row, input, attempt, hrow, hcurrent, hinput, husable.2, hattempt, husable.1⟩
              hnumbered
          | some current =>
            dsimp only
            split
            · next hheld =>
              obtain ⟨hrunning, hattemptRunning, rfl, hverify⟩ := hheld
              exact absurd ⟨row, attempt, hrow, hrunning, hcurrent, hattempt, hattemptRunning,
                husable.1, hverify⟩ (hstale job hjob)
            · refine ⟨.leaseLost, rfl, fun _ => ?_, fun _ => rfl⟩
              rintro ⟨row', _, _, hrow', hcurrent', _⟩
              obtain rfl := Option.some.inj (hrow.symm.trans hrow')
              simp [hcurrent] at hcurrent'
        · rw [if_neg husable]
          refine ⟨.leaseLost, rfl, fun _ => ?_, fun _ => rfl⟩
          rintro ⟨row', input', attempt', hrow', _, hinput', husable', hattempt', hlease⟩
          obtain rfl := Option.some.inj (hrow.symm.trans hrow')
          obtain rfl := Option.some.inj (hinput.symm.trans hinput')
          obtain rfl := Option.some.inj (hattempt.symm.trans hattempt')
          exact husable ⟨hlease, husable'⟩

/-- The job and the attempt number can be parameters of a query. -/
def Nameable (jobID : String) (n : ℤ) (job : Uuid) : Prop :=
  Uuid.parse jobID = some job ∧ fitsInteger n = true

/-- A query of a job that it cannot name fails in the database. -/
theorem checkAttempt_unnameable (s : Service) (token : String) (now : Timestamp)
    (next : CurrentAttempt → Tx Reply) (hname : ¬ ∃ job, Nameable jobID n job) : ∃ cause,
    (checkAttempt s jobID n token now).bind next =
      .fail (.database "read current attempt" cause) := by
  cases hjob : Uuid.parse jobID with
  | none => exact ⟨.invalidText, by simp [checkAttempt, uuidParam, hjob]⟩
  | some job =>
    have hn : fitsInteger n = false := by
      by_contra hn
      exact hname ⟨job, hjob, by simpa using hn⟩
    exact ⟨.outOfRange, by simp [checkAttempt, uuidParam, hjob, integerParam, require, hn]⟩

/-- A call that is refused whether or not it can name its job. -/
theorem losesLease_of_refused {call : Call} {bad : Uuid → Prop}
    (hnamed : ∀ job, Nameable jobID n job → ∃ (σ : Session) (error : Err), σ.call = call ∧
      w.perform (transaction s) call = some (w.refuse σ error) ∧ (error = .leaseLost ↔ ¬ bad job))
    (hunnamed : (¬ ∃ job, Nameable jobID n job) → ∃ (σ : Session) (context : String)
      (cause : DatabaseError), σ.call = call ∧
        w.perform (transaction s) call = some (w.refuse σ (.database context cause))) :
    LosesLease s w call ↔ ∃ job, Nameable jobID n job ∧ ¬ bad job := by
  by_cases hname : ∃ job, Nameable jobID n job
  · obtain ⟨job, hjob⟩ := hname
    obtain ⟨σ, error, hσ, hrun, herror⟩ := hnamed job hjob
    rw [losesLease_iff_of_refuse σ hσ hrun, herror]
    constructor
    · exact fun hgood => ⟨job, hjob, hgood⟩
    · rintro ⟨job', hjob', hgood⟩
      obtain rfl := Option.some.inj (hjob.1.symm.trans hjob'.1)
      exact hgood
  · obtain ⟨σ, context, cause, hσ, hrun⟩ := hunnamed hname
    rw [losesLease_iff_of_refuse σ hσ hrun]
    constructor
    · exact fun herror => by simp at herror
    · exact fun ⟨job, hjob, _⟩ => absurd ⟨job, hjob⟩ hname

/-- A call that begins with the check of a stale attempt. -/
theorem losesLease_of_checkAttempt {call : Call} {next : CurrentAttempt → Tx Reply}
    (hcall : transaction s call w.clock = (checkAttempt s jobID n token w.clock).bind next)
    (hstale : Stale s w.rows jobID n token w.clock) :
    LosesLease s w call ↔
      ∃ job, Nameable jobID n job ∧ ¬ Unnumbered w.rows job n w.clock := by
  refine losesLease_of_refused (fun job hjob => ?_) fun hname => ?_
  · obtain ⟨error, hjudge, herror⟩ := judgeAttempt_of_stale hjob.1 hstale
    obtain ⟨σ, hσ, halone⟩ := checkAttempt_alone s w token next call hjob.1 hjob.2
    simp only [hjudge] at halone
    exact ⟨σ, error, hσ, by rw [World.perform, hcall, halone], herror⟩
  · obtain ⟨cause, hfail⟩ := checkAttempt_unnameable s token w.clock next hname
    exact ⟨.start call w.clock w.store, _, cause, rfl, by rw [World.perform, hcall, hfail]; rfl⟩

/-- Every call of a worker on an attempt begins with the check of the attempt. -/
theorem AttemptCall.checks {call : Call} (h : AttemptCall jobID n token call) (s : Service)
    (now : Timestamp) :
    ∃ next, transaction s call now = (checkAttempt s jobID n token now).bind next := by
  cases h with
  | heartbeat =>
    simp only [transaction, replying, Hosted.heartbeat, Program.bind_eq, Program.bind_assoc]
    exact ⟨_, rfl⟩
  | updateProgress progress hvalid =>
    simp only [transaction, replying, Hosted.updateProgress, require, hvalid, if_true, Program.bind_eq,
      Program.pure_bind, Program.bind_assoc]
    exact ⟨_, rfl⟩
  | failAttempt code message retryable hbounds hcodes =>
    simp only [transaction, replying, Hosted.failAttempt, require, hbounds, hcodes, if_true,
      Program.bind_eq, Program.pure_bind, Program.bind_assoc]
    exact ⟨_, rfl⟩
  | completeAttempt result random =>
    simp only [transaction, replying, Hosted.completeAttempt, Program.bind_eq, Program.bind_assoc]
    exact ⟨_, rfl⟩

/-- The attempt exists and its job has no attempt number. -/
def Unscannable (store : Store) (job : Uuid) (n : ℤ) : Prop :=
  ∃ row attempt, store.job job = some row ∧ row.currentAttemptNumber = none ∧
    store.attempt job n = some attempt

/-- What the cancellation query finds in the committed rows. -/
def judgeCancellation (s : Service) (store : Store) (job : Uuid) (n : ℤ) (token : String)
    (now : Timestamp) : Except Err Bool :=
  match store.job job, store.attempt job n with
  | some row, some attempt =>
    match row.currentAttemptNumber with
    | none => .error (.database "read cancellation state" .nullScan)
    | some current =>
      if (current = n && s.verify attempt.tokenPepperVersion token attempt.tokenVerifier) = true then
        if (row.cancelRequestedAt.isSome || (row.state = .running && attempt.state = .running &&
            now < attempt.leaseExpiresAt)) = true then .ok row.cancelRequestedAt.isSome
        else .error .leaseLost
      else .error .leaseLost
  | _, _ => .error .leaseLost

/-- The cancellation query, alone, is a function of the committed rows. -/
theorem cancellation_alone (s : Service) (w : World) (token : String)
    (hjob : Uuid.parse jobID = some job) (hn : fitsInteger n = true) :
    ∃ σ : Session, σ.call = .cancellation jobID n token ∧
    w.perform (transaction s) (.cancellation jobID n token) =
      match judgeCancellation s w.rows job n token w.clock with
      | .error error => some (w.refuse σ error)
      | .ok requested => some (w.commit σ (.flag requested)) := by
  refine ⟨(Session.start (.cancellation jobID n token) w.clock w.store).nextStatement, rfl, ?_⟩
  simp only [World.perform, transaction, replying, cancellation, uuidParam, hjob, integerParam,
    require, hn, if_true, Program.bind_eq, Program.select, Program.bind, Program.alone,
    Session.view_of_writes_empty (Session.start_writes _ _ _), judgeCancellation]
  cases w.rows.job job with
  | none => rfl
  | some row =>
    cases w.rows.attempt job n with
    | none => rfl
    | some attempt =>
      simp only [Option.bind_some, Option.map_some]
      cases row.currentAttemptNumber with
      | none => rfl
      | some current =>
        dsimp only
        split
        · simp only [Program.pure_bind]
          split <;> rfl
        · rfl

/-- What the cancellation query finds of an attempt that is stale and not cancelled. -/
theorem judgeCancellation_of_stale (hjob : Uuid.parse jobID = some job)
    (hstale : Stale s w.rows jobID n token w.clock)
    (hcancel : ¬ CancelRequested s w.rows jobID n token) : ∃ error,
    judgeCancellation s w.rows job n token w.clock = .error error ∧
      (error = .leaseLost ↔ ¬ Unscannable w.rows job n) := by
  simp only [judgeCancellation]
  cases hrow : w.rows.job job with
  | none =>
    refine ⟨.leaseLost, rfl, fun _ => ?_, fun _ => rfl⟩
    rintro ⟨row, _, hrow', _⟩
    simp [hrow] at hrow'
  | some row =>
    cases hattempt : w.rows.attempt job n with
    | none =>
      refine ⟨.leaseLost, rfl, fun _ => ?_, fun _ => rfl⟩
      rintro ⟨_, attempt, _, _, hattempt'⟩
      simp [hattempt] at hattempt'
    | some attempt =>
      dsimp only
      cases hcurrent : row.currentAttemptNumber with
      | none =>
        refine ⟨_, rfl, fun herror => by simp at herror, fun hscannable => ?_⟩
        exact absurd ⟨row, attempt, hrow, hcurrent, hattempt⟩ hscannable
      | some current =>
        have hscannable : ¬ Unscannable w.rows job n := by
          rintro ⟨row', _, hrow', hcurrent', _⟩
          obtain rfl := Option.some.inj (hrow.symm.trans hrow')
          simp [hcurrent] at hcurrent'
        dsimp only
        split
        · next hheld =>
          simp only [Bool.and_eq_true, decide_eq_true_eq] at hheld
          obtain ⟨rfl, hverify⟩ := hheld
          refine ⟨.leaseLost, if_neg ?_, fun _ => hscannable, fun _ => rfl⟩
          simp only [Bool.or_eq_true, Bool.and_eq_true, decide_eq_true_eq]
          rintro (hrequested | ⟨⟨hrunning, hattemptRunning⟩, hlease⟩)
          · exact hcancel ⟨job, row, attempt, hjob, hrow, hcurrent, hattempt, hverify, hrequested⟩
          · exact hstale job hjob ⟨row, attempt, hrow, hrunning, hcurrent, hattempt, hattemptRunning,
              hlease, hverify⟩
        · exact ⟨.leaseLost, rfl, fun _ => hscannable, fun _ => rfl⟩

/-- A cancellation query that cannot name its job fails in the database. -/
theorem cancellation_unnameable (s : Service) (token : String) (now : Timestamp)
    (hname : ¬ ∃ job, Nameable jobID n job) : ∃ cause,
    cancellation s jobID n token now = .fail (.database "read cancellation state" cause) := by
  cases hjob : Uuid.parse jobID with
  | none => exact ⟨.invalidText, by simp [cancellation, uuidParam, hjob]⟩
  | some job =>
    have hn : fitsInteger n = false := by
      by_contra hn
      exact hname ⟨job, hjob, by simpa using hn⟩
    exact ⟨.outOfRange, by simp [cancellation, uuidParam, hjob, integerParam, require, hn]⟩

/-- The cancellation query on an attempt that is stale and not cancelled. -/
theorem losesLease_cancellation (hstale : Stale s w.rows jobID n token w.clock)
    (hcancel : ¬ CancelRequested s w.rows jobID n token) :
    LosesLease s w (.cancellation jobID n token) ↔
      ∃ job, Nameable jobID n job ∧ ¬ Unscannable w.rows job n := by
  refine losesLease_of_refused (fun job hjob => ?_) fun hname => ?_
  · obtain ⟨error, hjudge, herror⟩ := judgeCancellation_of_stale hjob.1 hstale hcancel
    obtain ⟨σ, hσ, halone⟩ := cancellation_alone s w token hjob.1 hjob.2
    simp only [hjudge] at halone
    exact ⟨σ, error, hσ, halone, herror⟩
  · obtain ⟨cause, hfail⟩ := cancellation_unnameable s token w.clock hname
    refine ⟨.start (.cancellation jobID n token) w.clock w.store, "read cancellation state", cause,
      rfl, ?_⟩
    rw [World.perform, transaction, replying, hfail]
    rfl

/-- Every call of a stale attempt is told that the lease is lost and changes nothing,
unless its job has lost its attempt number while the attempt itself still looks alive. -/
theorem stale_attempt_iff (hstale : Stale s w.rows jobID n token w.clock) :
    (∀ call, AttemptCall jobID n token call → (LosesLease s w call ↔
      ∃ job, Nameable jobID n job ∧ ¬ Unnumbered w.rows job n w.clock)) ∧
    (¬ CancelRequested s w.rows jobID n token →
      (LosesLease s w (.cancellation jobID n token) ↔
        ∃ job, Nameable jobID n job ∧ ¬ Unscannable w.rows job n)) := by
  refine ⟨fun call hcall => ?_, fun hcancel => losesLease_cancellation hstale hcancel⟩
  obtain ⟨next, hchecks⟩ := hcall.checks s w.clock
  exact losesLease_of_checkAttempt hchecks hstale

/-- In the example the attempt is held, and another token is not its own. -/
theorem demoValidation_held :
    (((World.initial 0 : World).serve (transaction demo) demoValidation).any fun w =>
      (w.rows.job (newID 3)).any (fun row => row.currentAttemptNumber = some 1) &&
        (w.rows.attempt (newID 3) 1).any fun attempt =>
          !demo.verify attempt.tokenPepperVersion "stolen token" attempt.tokenVerifier) = true := by
  decide +kernel

/-- A worker without the token of a running attempt is told that the lease is lost. -/
theorem stale_attempt_iff_stolen : ∃ system : System,
    System.Reachable (transaction demo) Anything system ∧
      LosesLease demo system.world (.heartbeat (newID 3).text 1 "stolen token") ∧
      LosesLease demo system.world (.cancellation (newID 3).text 1 "stolen token") := by
  obtain ⟨w, hrun, hany⟩ := (Option.any_eq_true _ _).mp demoValidation_held
  rw [Bool.and_eq_true] at hany
  obtain ⟨row, hrow, hcurrent⟩ := (Option.any_eq_true _ _).mp hany.1
  obtain ⟨attempt, hattempt, hverify⟩ := (Option.any_eq_true _ _).mp hany.2
  have hnamed : Nameable (newID 3).text 1 (newID 3) := ⟨by decide +kernel, by decide⟩
  have hserial : Serial (transaction demo) w := Serial.serve (.initial 0) hrun
  have hreachable : System.Reachable (transaction demo) Anything ⟨w, ∅⟩ :=
    hserial.reachable fun _ _ _ => trivial
  have hstale : Stale demo w.rows (newID 3).text 1 "stolen token" w.clock := by
    rintro job hjob ⟨_, attempt', _, _, _, hattempt', _, _, hverify'⟩
    obtain rfl := Option.some.inj (hnamed.1.symm.trans hjob)
    obtain rfl := Option.some.inj (hattempt.symm.trans hattempt')
    simp [hverify'] at hverify
  have hcancel : ¬ CancelRequested demo w.rows (newID 3).text 1 "stolen token" := by
    rintro ⟨job, _, attempt', hjob, _, _, hattempt', hverify', _⟩
    obtain rfl := Option.some.inj (hnamed.1.symm.trans hjob)
    obtain rfl := Option.some.inj (hattempt.symm.trans hattempt')
    simp [hverify'] at hverify
  have hnumbered : ∀ row', w.rows.job (newID 3) = some row' → row'.currentAttemptNumber ≠ none := by
    intro row' hrow'
    obtain rfl := Option.some.inj (hrow.symm.trans hrow')
    simp [of_decide_eq_true hcurrent]
  obtain ⟨hcalls, hcancellation⟩ := stale_attempt_iff hstale
  refine ⟨⟨w, ∅⟩, hreachable, (hcalls _ .heartbeat).mpr ⟨_, hnamed, ?_⟩,
    (hcancellation hcancel).mpr ⟨_, hnamed, ?_⟩⟩
  · rintro ⟨row', _, _, hrow', hnone, _⟩
    exact hnumbered row' hrow' hnone
  · rintro ⟨row', _, hrow', hnone, _⟩
    exact hnumbered row' hrow' hnone

/-- An attempt fails and its job waits for the next one. -/
def demoRetry : List (Call × ℕ) :=
  demoValidation ++ [(.failAttempt (newID 3).text 1 "token" "internal" "worker stopped" true, 0)]

/-- In the example a heartbeat of a fenced attempt is answered with a scan error. -/
theorem demoRetry_waiting :
    (((World.initial 0 : World).serve (transaction demo) demoRetry).any fun w =>
      ((w.rows.job (newID 3)).any fun row => row.state = .retryWait) &&
        (w.perform (transaction demo) (.heartbeat (newID 3).text 1 "token")).any fun w' =>
          w'.history.head?.any fun f => match f.result with
            | .error error => error.attemptFailure = (503, "internal")
            | .ok _ => false) = true := by
  decide +kernel

/-- A worker whose attempt was superseded by a retry is told of an internal error. -/
theorem superseded_attempt_internal : ∃ system : System,
    System.Reachable (transaction demo) Anything system ∧
      Stale demo system.world.rows (newID 3).text 1 "token" system.world.clock ∧
      ¬ LosesLease demo system.world (.heartbeat (newID 3).text 1 "token") := by
  obtain ⟨w, hrun, hany⟩ := (Option.any_eq_true _ _).mp demoRetry_waiting
  rw [Bool.and_eq_true] at hany
  obtain ⟨row, hrow, hwaiting⟩ := (Option.any_eq_true _ _).mp hany.1
  obtain ⟨w', hperform, hanswer⟩ := (Option.any_eq_true _ _).mp hany.2
  obtain ⟨f, hf, hinternal⟩ := (Option.any_eq_true _ _).mp hanswer
  have hnamed : Nameable (newID 3).text 1 (newID 3) := ⟨by decide +kernel, by decide⟩
  have hserial : Serial (transaction demo) w := Serial.serve (.initial 0) hrun
  refine ⟨⟨w, ∅⟩, hserial.reachable fun _ _ _ => trivial, ?_, ?_⟩
  · rintro job hjob ⟨row', _, hrow', hrunning, _⟩
    obtain rfl := Option.some.inj (hnamed.1.symm.trans hjob)
    obtain rfl := Option.some.inj (hrow.symm.trans hrow')
    simp [hrunning] at hwaiting
  · rintro ⟨w'', f', hperform', _, hhistory, _, error, hresult, rfl, _⟩
    obtain rfl := Option.some.inj (hperform.symm.trans hperform')
    obtain rfl : f' = f := by simpa [hhistory] using hf
    simp [hresult, Err.attemptFailure] at hinternal

end Tracewake.Hosted
