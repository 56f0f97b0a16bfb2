import Tracewake.ReadCommitted.Serial
import Tracewake.Hosted.ClaimVerified
import Tracewake.Hosted.CompletionVerified
import Tracewake.Hosted.PublicationVerified
import Tracewake.Hosted.ReconcileVerified
import Tracewake.Hosted.RequestsVerified
import Tracewake.Hosted.RetentionVerified

/-!
# The control plane keeps its contract

Every transaction of the service is verified, so that every interleaving of their
statements that a policy admits keeps the contract of that policy.
-/

namespace Tracewake.Hosted

open ReadCommitted

variable {p : Policy} {s : Service}

/-- The empty database is consistent: it has no row. -/
theorem Consistent.empty (p : Policy) (s : Service) : Consistent p s ∅ where
  jobs job := by
    refine ⟨⟨0, le_rfl, by decide, fun n => ?_⟩, fun _ => ⟨fun _ => AList.lookup_empty _,
      fun _ => AList.lookup_empty _⟩, ?_, ?_, ?_, ?_, ?_, ?_⟩
    · constructor
      · exact fun hsome => absurd (AList.lookup_empty _) hsome
      · exact fun hbounds => by omega
    · exact fun row hrow => absurd hrow (by simp [Store.job])
    · exact fun row hrow => absurd hrow (by simp [Store.job])
    · exact fun _ row hrow => absurd hrow (by simp [Store.job])
    · exact fun row hrow => absurd hrow (by simp [Store.job])
    · exact fun kind artifact hartifact => absurd hartifact (by simp [Store.artifact])
    · exact fun row hrow => absurd hrow (by simp [Store.job])
  inputs job row hrow := absurd hrow (by simp [Store.job])
  runs _ job row input hrow := absurd hrow (by simp [Store.job])
  shapes i input hinput := absurd hinput (by simp [Store.input])
  placed i input hinput := absurd hinput (by simp [Store.input])
  validations := by
    rintro _ job job' run ⟨row, input, hrow, _⟩
    exact absurd hrow (by simp [Store.job])
  outbox job version sent hsent := absurd hsent (by simp [Store.outbox])
  digests workspace digest i hi := absurd hi (by simp)
  records workspace key record hrecord := absurd hrecord (by simp [Store.idempotency])

/-- Every call of the service is verified. -/
theorem verified (p : Policy) (s : Service) : (contract p s).Verified (transaction s) where
  initial _ := .empty p s
  tick _ _ h := h
  draw _ h := h
  refuse _ _ _ h _ := h
  calls call w _ hstarts := by
    cases call with
    | createUpload => exact wp_replying wp_createUpload
    | completeUpload => exact wp_replying wp_completeUpload
    | createJob => exact wp_replying (wp_createJob hstarts)
    | claim => exact wp_replying wp_claim
    | heartbeat => exact wp_replying wp_heartbeat
    | updateProgress => exact wp_replying wp_updateProgress
    | cancellation => exact wp_replying wp_cancellation
    | authorizeAttempt => exact wp_replying wp_authorizeAttempt
    | inputArtifact => exact wp_replying wp_inputArtifact
    | resultInputs => exact wp_replying wp_resultInputs
    | failAttempt => exact wp_replying wp_failAttempt
    | completeAttempt => exact wp_replying wp_completeAttempt
    | requestCancellation => exact wp_replying wp_requestCancellation
    | nextNotification => exact wp_replying wp_nextNotification
    | publishOutbox => exact wp_replying wp_publishOutbox
    | acknowledgeNotification => exact wp_replying wp_acknowledgeNotification
    | reconcile => exact wp_replying wp_reconcile
    | enforceRetention => exact wp_replying wp_enforceRetention
    | deleteRun => exact wp_replying wp_deleteRun

/-- The events that a policy admits: where calls may begin, which commits it permits,
and which commits it keeps apart from an open transaction. -/
def Admits (p : Policy) (system : System) : Event Call → Prop
  | .start _ call => p.keyed → KeyedStart call system.world
  | .run n => ∀ t value, system.running.lookup n = some t → t.program = .pure value →
    (p.patient → PatientCommit t.session system.world) ∧
    ∀ m u, m ≠ n → system.running.lookup m = some u →
      (p.fenced → FencedApart u.session.call u.session.now u.session.statements t.session
        system.world) ∧
      (p.keyed → KeyedApart u.session.call t.session system.world)
  | _ => True

/-- The events that a policy admits make a schedule of its contract. -/
theorem admits_schedules (p : Policy) (s : Service) : (contract p s).Schedules (Admits p) where
  start _ _ _ h := h
  permits _ _ t value h ht hvalue := (h t value ht hvalue).1
  apart _ _ t value h ht hvalue := (h t value ht hvalue).2

/-- Everything may happen in any order. -/
abbrev Anything (_ : System) (_ : Event Call) : Prop := True

/-- No hazard is avoided. -/
abbrev unrestricted : Policy := ⟨False, False, False⟩

/-- Without any restriction every event is admitted. -/
theorem anything_schedules (s : Service) : (contract unrestricted s).Schedules Anything where
  start _ _ _ _ := False.elim
  permits _ _ _ _ _ _ _ := False.elim
  apart _ _ _ _ _ _ _ _ _ _ _ := ⟨False.elim, False.elim⟩

/-- What every interleaving of the statements keeps. -/
theorem sound_of_reachable {system : System}
    (h : System.Reachable (transaction s) Anything system) :
    (contract unrestricted s).Sound system :=
  (verified unrestricted s).sound (anything_schedules s) h

/-- In every run that a policy admits the contract is kept. -/
theorem sound_of_admits {system : System} (h : System.Reachable (transaction s) (Admits p) system) :
    (contract p s).Sound system :=
  (verified p s).sound (admits_schedules p s) h

/-- One of two open sessions is not the only one. -/
theorem one_session {system : System} (h : system.running.entries.length ≤ 1) {n m : ℕ}
    {t u : Transaction Row Call Err Reply} (ht : system.running.lookup n = some t)
    (hu : system.running.lookup m = some u) : m = n := by
  have ht' := AList.mem_lookup_iff.mp ht
  have hu' := AList.mem_lookup_iff.mp hu
  match hentries : system.running.entries with
  | [] => simp [hentries] at ht'
  | [entry] =>
    simp only [hentries, List.mem_singleton] at ht' hu'
    have heq := hu'.trans ht'.symm
    exact congrArg Sigma.fst heq
  | _ :: _ :: _ => simp [hentries] at h

/-- Serial runs avoid the hazards of overlapping transactions. -/
abbrev serialPolicy : Policy := ⟨True, False, False⟩

/-- With one open session nothing needs to be kept apart. -/
theorem admits_of_serial {system : System} {event : Event Call}
    (h : system.running.entries.length ≤ 1) : Admits serialPolicy system event := by
  cases event with
  | start n call => exact False.elim
  | run n =>
    intro t value ht _
    refine ⟨False.elim, fun m u hne hu => absurd (one_session h ht hu) hne⟩
  | abort n => trivial
  | tick n => trivial

/-- What serial runs keep. -/
theorem Consistent.of_serial {w : World} (h : Serial (transaction s) w) :
    Consistent serialPolicy s w.rows :=
  (sound_of_admits (h.reachable fun _ _ hlength => admits_of_serial hlength)).inv

end Tracewake.Hosted
