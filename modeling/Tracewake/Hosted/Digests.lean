import Tracewake.Hosted.Contract

/-!
# What a request digest determines

A job request is hashed in a text from which its operation and its run identities
can be read back. Without collisions, an input that is found by the digest of a
request is therefore an input for that request.
-/

namespace Tracewake.Hosted

variable {s : Service}

/-- The canonical spellings have one length. -/
theorem validID_length {value : String} (h : validID value = true) :
    value.toList.length = 36 := by
  simp only [validID, Bool.and_eq_true, decide_eq_true_eq] at h
  exact h.1.1

/-- Texts that begin with parts of one length agree in both parts. -/
theorem append_inj_of_length {a a' b b' : String} (h : a ++ b = a' ++ b')
    (hlength : a.toList.length = a'.toList.length) : a = a' ∧ b = b' := by
  have hlist : a.toList ++ b.toList = a'.toList ++ b'.toList := by
    simpa using congrArg String.toList h
  obtain ⟨ha, hb⟩ := List.append_inj hlist hlength
  exact ⟨String.toList_inj.mp ha, String.toList_inj.mp hb⟩

/-- The operations differ in their first characters. -/
theorem Operation.text_inj_of_append {a b : Operation} {x y : String}
    (h : a.text ++ x = b.text ++ y) : a = b := by
  have hhead := congrArg (fun text : String => text.toList.head?) h
  cases a <;> cases b <;> simp [Operation.text] at hhead ⊢

/-- An analysis is named by the text of its operation. -/
theorem analysisOperations_name {name : String} {operation : Operation} {profile : Option String}
    {runs : ℕ} (h : analysisOperations name = some (operation, profile, runs)) :
    name = operation.text ∧ operation ≠ .validate ∧ runs = expectedInputs operation := by
  unfold analysisOperations at h
  split at h
  all_goals simp only [Option.some.injEq, Prod.mk.injEq, reduceCtorEq] at h
  all_goals
    obtain ⟨rfl, _, rfl⟩ := h
    exact ⟨rfl, by simp, rfl⟩

/-- What a digest of a request says about the request. -/
theorem normalizedDigest_eq {request : JobRequest} {operation : Operation} {digest : String}
    (h : normalizedDigest s request = .ok (operation, digest)) :
    analysisOperations request.operation =
        some (operation, request.profile, request.runIDs.length) ∧
      request.runIDs.Nodup ∧ digest = s.hashes.sha256 (marshalJobRequest request) := by
  unfold normalizedDigest at h
  split at h
  · cases h
  · rename_i found profile runs hname
    split at h
    · split at h <;> cases h
    · rename_i hprofile
      split at h
      · cases h
      · rename_i hruns
        simp only [Except.ok.injEq, Prod.mk.injEq] at h
        obtain ⟨rfl, rfl⟩ := h
        push Not at hprofile hruns
        exact ⟨by rw [hname, hprofile, hruns.1], hruns.2.2, rfl⟩

/-- Run identities of one length can be read back from their JSON array. -/
theorem marshalRunIDs_inj {ids ids' : List String} (hlength : ids.length = ids'.length)
    (hruns : ids.length = 1 ∨ ids.length = 2) (hvalid : ∀ id ∈ ids, id.toList.length = 36)
    (hvalid' : ∀ id ∈ ids', id.toList.length = 36) (h : marshalRunIDs ids = marshalRunIDs ids') :
    ids = ids' := by
  match ids, ids', hlength, hruns with
  | [a], [a'], _, _ =>
    have h : "[" ++ ("\"" ++ a ++ "\"") ++ "]" = "[" ++ ("\"" ++ a' ++ "\"") ++ "]" := h
    simpa using h
  | [a, b], [a', b'], _, _ =>
    have h : "[" ++ ("\"" ++ a ++ "\"" ++ "," ++ ("\"" ++ b ++ "\"")) ++ "]" =
        "[" ++ ("\"" ++ a' ++ "\"" ++ "," ++ ("\"" ++ b' ++ "\"")) ++ "]" := h
    simp only [String.append_assoc, String.append_right_inj] at h
    obtain ⟨rfl, h⟩ := append_inj_of_length h
      ((hvalid a (by simp)).trans (hvalid' a' (by simp)).symm)
    simpa using h

/-- The text that is hashed begins with the operation. -/
theorem marshalJobRequest_eq (request : JobRequest) : ∃ rest,
    marshalJobRequest request = "\x7b\"operation\":\"" ++ (request.operation ++ rest) := by
  unfold marshalJobRequest
  simp only [String.append_assoc]
  exact ⟨_, rfl⟩

/-- The operation can be read back from the text that is hashed. -/
theorem marshalJobRequest_operation {request : JobRequest} {operation : Operation}
    (operation' : Operation) {rest : String} (hname : request.operation = operation.text)
    (h : marshalJobRequest request = "\x7b\"operation\":\"" ++ (operation'.text ++ rest)) :
    operation = operation' := by
  obtain ⟨_, htext⟩ := marshalJobRequest_eq request
  rw [htext, hname, String.append_right_inj] at h
  exact Operation.text_inj_of_append h

/-- Requests with one digest name the same operation and the same runs. -/
theorem normalizedDigest_inj (hfree : s.CollisionFree) {request request' : JobRequest}
    {operation operation' : Operation} {digest : String}
    (h : normalizedDigest s request = .ok (operation, digest))
    (h' : normalizedDigest s request' = .ok (operation', digest))
    (hvalid : request.runIDs.all validID = true) (hvalid' : request'.runIDs.all validID = true) :
    operation = operation' ∧ request.runIDs = request'.runIDs := by
  obtain ⟨hname, _, hdigest⟩ := normalizedDigest_eq h
  obtain ⟨hname', _, hdigest'⟩ := normalizedDigest_eq h'
  have htext : marshalJobRequest request = marshalJobRequest request' :=
    hfree (hdigest.symm.trans hdigest')
  obtain ⟨hoperation, _, hruns⟩ := analysisOperations_name hname
  obtain ⟨hoperation', _, _⟩ := analysisOperations_name hname'
  have hsame : operation = operation' := by
    obtain ⟨_, htext'⟩ := marshalJobRequest_eq request'
    rw [hoperation'] at htext'
    exact marshalJobRequest_operation _ hoperation (htext.trans htext')
  subst hsame
  have hnames : request.operation = request'.operation := hoperation.trans hoperation'.symm
  rw [hnames, hname'] at hname
  simp only [Option.some.injEq, Prod.mk.injEq, true_and] at hname
  obtain ⟨hprofile, hlength⟩ := hname
  have hids : marshalRunIDs request.runIDs = marshalRunIDs request'.runIDs := by
    unfold marshalJobRequest at htext
    rw [hnames, hprofile] at htext
    simpa using htext
  refine ⟨rfl, marshalRunIDs_inj hlength.symm ?_ ?_ ?_ hids⟩
  · rw [hruns]
    cases operation <;> simp [expectedInputs]
  · exact fun id hid => validID_length (List.all_eq_true.mp hvalid id hid)
  · exact fun id hid => validID_length (List.all_eq_true.mp hvalid' id hid)

/-- An input that is found by the digest of a request is an input for the request. -/
theorem Describes.input_eq (hfree : s.CollisionFree) {workspace : Uuid} {digest : String}
    {input : InputRow} (h : Describes s workspace digest input) {request : JobRequest}
    {operation : Operation} (hdigest : normalizedDigest s request = .ok (operation, digest))
    (hvalid : request.runIDs.all validID = true) :
    input.operation = operation ∧ request.runIDs.map Uuid.parse = input.runs.map some := by
  rcases h.2 with ⟨request', hdigest', hvalid', hruns⟩ | ⟨_, runID, hvalidation⟩
  · obtain ⟨hoperation, hids⟩ := normalizedDigest_inj hfree hdigest hdigest' hvalid hvalid'
    exact ⟨hoperation.symm, hids ▸ hruns⟩
  · obtain ⟨hname, _, htext⟩ := normalizedDigest_eq hdigest
    obtain ⟨hoperation, hanalysis, _⟩ := analysisOperations_name hname
    have hsame : marshalJobRequest request =
        "\x7b\"operation\":\"" ++ ("validate" ++ ("\",\"run_id\":\"" ++ runID ++ "\"\x7d")) := by
      rw [hfree (htext.symm.trans hvalidation)]
      simp only [← String.append_assoc]
      rfl
    exact absurd (marshalJobRequest_operation .validate hoperation hsame) hanalysis

end Tracewake.Hosted
