import Tracewake.Hosted.Digests
import Tracewake.Hosted.PermanentDeletion

/-!
# Requests for the same work

A job request is identified by the text it is hashed in, and this text holds the run
identities as they are spelled. The database compares UUID values. Where a caller changes
the case of a digit, the same work gets another digest, and a run that is compared with
itself is not noticed.
-/

namespace Tracewake.Hosted

open ReadCommitted

variable {s : Service}

/-- Two requests ask for the same work: one operation on the same runs in the same order
under one profile. -/
structure SameWork (request other : JobRequest) : Prop where
  operation : request.operation = other.operation
  runs : request.runIDs.map Uuid.parse = other.runIDs.map Uuid.parse
  profile : request.profile = other.profile

/-- The request passes validation and has this digest. -/
def Digested (s : Service) (request : JobRequest) (digest : String) : Prop :=
  request.runIDs.all validID = true ∧
    ∃ operation, normalizedDigest s request = .ok (operation, digest)

/-- A comparison of two runs. -/
def diffRequest (a b : String) : JobRequest := ⟨"diff", [a, b], some "align-v2"⟩

/-- `CreateJob` ends before its first statement because the request is invalid. -/
def RejectsInvalid (s : Service) (workspace : Uuid) (key : String) (request : JobRequest) : Prop :=
  ∀ randomInput randomJob now, ∃ detail,
    createJob s workspace key request randomInput randomJob now = .fail (.invalidRequest detail)

/-- The digest determines what is hashed. -/
theorem digested_inj (hfree : s.CollisionFree) {request other : JobRequest} {digest : String}
    (h : Digested s request digest) (h' : Digested s other digest) : request = other := by
  obtain ⟨hvalid, operation, hdigest⟩ := h
  obtain ⟨hvalid', operation', hdigest'⟩ := h'
  obtain ⟨hoperation, hruns⟩ := normalizedDigest_inj hfree hdigest hdigest' hvalid hvalid'
  obtain ⟨hname, _, _⟩ := normalizedDigest_eq hdigest
  obtain ⟨hname', _, _⟩ := normalizedDigest_eq hdigest'
  have hsame : request.operation = other.operation := by
    rw [(analysisOperations_name hname).1, (analysisOperations_name hname').1, hoperation]
  rw [hsame, hname'] at hname
  have hprofile : other.profile = request.profile := by
    simp only [Option.some.injEq, Prod.mk.injEq] at hname
    exact hname.2.1
  obtain ⟨name, runs, profile⟩ := request
  obtain ⟨name', runs', profile'⟩ := other
  simp only at hsame hprofile hruns
  subst hsame hprofile hruns
  rfl

/-- A digest is one of the request's texts. -/
theorem digest_of_eq {request : JobRequest} {digest digest' : String}
    (h : Digested s request digest) (h' : Digested s request digest') : digest = digest' := by
  obtain ⟨_, operation, hdigest⟩ := h
  obtain ⟨_, operation', hdigest'⟩ := h'
  exact congrArg Prod.snd (Except.ok.inj (hdigest.symm.trans hdigest'))

/-- A valid text is not empty. -/
theorem validID_ne_empty {id : String} (h : validID id = true) : id ≠ "" := by
  rintro rfl
  exact absurd (validID_length h) (by decide)

/-- The digest of a comparison of two runs that are spelled differently. -/
theorem normalizedDigest_diff {a b : String} (ha : validID a = true) (hb : validID b = true) :
    normalizedDigest s (diffRequest a b) =
      if a = b then .error (.invalidRequest "job has invalid run identities")
      else .ok (.diff, s.hashes.sha256 (marshalJobRequest (diffRequest a b))) := by
  unfold normalizedDigest diffRequest
  simp [analysisOperations, (validID_ne_empty ha).symm, (validID_ne_empty hb).symm]

/-- `CreateJob` begins with its first statement, or rejects the comparison. -/
theorem createJob_diff {a b key : String} {workspace : Uuid} (hkey : validIdempotencyKey key = true)
    (ha : validID a = true) (hb : validID b = true) (randomInput randomJob : BitVec 128)
    (now : Timestamp) :
    (a = b → createJob s workspace key (diffRequest a b) randomInput randomJob now =
      .fail (.invalidRequest "job has invalid run identities")) ∧
    (a ≠ b → ∃ next, createJob s workspace key (diffRequest a b) randomInput randomJob now =
      .snapshot next) := by
  have hvalid : (diffRequest a b).runIDs.all validID = true := by
    simp [diffRequest, ha, hb]
  unfold createJob
  rw [hkey, hvalid, normalizedDigest_diff ha hb]
  constructor
  · intro hsame
    rw [if_pos hsame]
    rfl
  · intro hne
    rw [if_neg hne]
    exact ⟨_, rfl⟩

/-- Digests of valid requests agree exactly on the same work if the runs that the two
requests share are spelled alike. A comparison of a run with itself is rejected as invalid
exactly if the run is spelled twice in the same way. -/
theorem request_normalized_iff (hfree : s.CollisionFree) :
    (∀ request other digest digest', Digested s request digest → Digested s other digest' →
      ((digest = digest' ↔ SameWork request other) ↔
        (SameWork request other → request.runIDs = other.runIDs))) ∧
    ∀ workspace key a b, validIdempotencyKey key = true → validID a = true → validID b = true →
      Uuid.parse a = Uuid.parse b → (RejectsInvalid s workspace key (diffRequest a b) ↔ a = b) := by
  constructor
  · intro request other digest digest' h h'
    have hsound : digest = digest' → SameWork request other ∧ request.runIDs = other.runIDs := by
      rintro rfl
      obtain rfl := digested_inj hfree h h'
      exact ⟨⟨rfl, rfl, rfl⟩, rfl⟩
    constructor
    · intro hexact hsame
      exact (hsound (hexact.mpr hsame)).2
    · intro hspelled
      refine ⟨fun hdigest => (hsound hdigest).1, fun hsame => ?_⟩
      have hequal : request = other := by
        have hruns := hspelled hsame
        obtain ⟨hoperation, _, hprofile⟩ := hsame
        obtain ⟨name, runs, profile⟩ := request
        obtain ⟨name', runs', profile'⟩ := other
        simp only at hoperation hprofile hruns
        subst hoperation hprofile hruns
        rfl
      subst hequal
      exact digest_of_eq h h'
  · intro workspace key a b hkey ha hb _
    constructor
    · intro hrejects
      by_contra hne
      obtain ⟨detail, hfail⟩ := hrejects 0 0 0
      obtain ⟨next, hnext⟩ := (createJob_diff hkey ha hb 0 0 0).2 hne
      exact absurd (hnext.symm.trans hfail) (by simp)
    · intro hsame randomInput randomJob now
      exact ⟨_, (createJob_diff hkey ha hb randomInput randomJob now).1 hsame⟩

/-- A comparison of a run with itself is rejected. -/
theorem request_normalized_rejected :
    RejectsInvalid demo 7 "key" (diffRequest (newID 10).text (newID 10).text) :=
  ((request_normalized_iff demo_collisionFree).2 7 "key" _ _ (by decide) (by decide +kernel)
    (by decide +kernel) rfl).mpr rfl

/-- A run as the control plane spells it, and with one digit in upper case. -/
def demoSpellings : String × String :=
  ("00000000-0000-4000-8000-00000000000a", "00000000-0000-4000-8000-00000000000A")

/-- In two spellings a run gets two digests, and it may be compared with itself. -/
theorem request_spelled_twice :
    (∃ request other digest digest', Digested demo request digest ∧ Digested demo other digest' ∧
      SameWork request other ∧ digest ≠ digest') ∧
    Uuid.parse demoSpellings.1 = Uuid.parse demoSpellings.2 ∧ validID demoSpellings.1 = true ∧
      validID demoSpellings.2 = true ∧
      ¬ RejectsInvalid demo 7 "key" (diffRequest demoSpellings.1 demoSpellings.2) := by
  have hlower : validID demoSpellings.1 = true := by decide +kernel
  have hupper : validID demoSpellings.2 = true := by decide +kernel
  have hparse : Uuid.parse demoSpellings.1 = Uuid.parse demoSpellings.2 := by decide +kernel
  refine ⟨⟨⟨"otlp", [demoSpellings.1], none⟩, ⟨"otlp", [demoSpellings.2], none⟩, _, _,
    ⟨by decide +kernel, .otlp, rfl⟩, ⟨by decide +kernel, .otlp, rfl⟩, ?_, by decide +kernel⟩,
    hparse, hlower, hupper, ?_⟩
  · exact ⟨rfl, by simp [hparse], rfl⟩
  · intro hrejects
    have hkey : validIdempotencyKey "key" = true := by decide
    obtain ⟨detail, hfail⟩ := hrejects 0 0 0
    obtain ⟨next, hnext⟩ := (createJob_diff hkey hlower hupper 0 0 0).2 (by decide)
    exact absurd (hnext.symm.trans hfail) (by simp)

end Tracewake.Hosted
