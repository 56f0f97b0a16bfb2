import Mathlib.Data.List.Basic
import Tracewake.Hosted.Service
import Tracewake.ReadCommitted.Renewal

/-!
# Authentication and the rotation of peppers

A tenant token or a worker credential is stored as a verifier with the version of the pepper
it was computed under. Authentication reads the row in one statement and, in another, brings
the verifier up to the current pepper where the row is as it was read.
-/

namespace Tracewake.Hosted

open ReadCommitted (Renewal.Caller Renewal.Reading)
open ReadCommitted.Renewal

/-- `ErrUnauthenticated` and `ErrForbidden`. -/
inductive AuthError where
  | unauthenticated
  | forbidden
  deriving DecidableEq

/-- `Principal`. -/
structure Principal where
  workspaceID : String
  scopes : List String
  deriving DecidableEq

/-- A row of `api_tokens` with the state of its workspace. -/
structure ApiToken where
  tokenPrefix : String
  workspaceID : String
  verifier : List UInt8
  pepperVersion : ℤ
  scopes : List String
  revokedAt : Option ℤ
  expiresAt : Option ℤ
  lastUsedAt : Option ℤ
  workspaceActive : Bool

/-- A row of `worker_credentials`. -/
structure WorkerCredential where
  id : String
  tokenPrefix : String
  verifier : List UInt8
  pepperVersion : ℤ
  revokedAt : Option ℤ
  expiresAt : Option ℤ

/-- The columns that an update compares with what was read: the name of the row, its
verifier and the version of its pepper. -/
structure Compared where
  name : String
  verifier : List UInt8
  pepperVersion : ℤ
  deriving DecidableEq

/-- `KeyRing.Verify`. -/
def KeyRing.verify (hashes : Hashes) (k : KeyRing) (version : ℤ) (token : String)
    (verifier : List UInt8) : Bool :=
  if version = k.currentVersion then hashes.hmac k.current token = verifier
  else if version ≠ k.currentVersion - 1 ∨ k.previous = [] then false
  else hashes.hmac k.previous token = verifier

/-- `splitToken`: what stands before the first dot, if the parts have their lengths. -/
def splitToken (token : String) : Option String :=
  let before := String.ofList (token.toList.takeWhile (· ≠ '.'))
  let secret := String.ofList (token.toList.dropWhile (· ≠ '.')).tail
  if !token.toList.contains '.' || before.utf8ByteSize = 0 || 26 < before.utf8ByteSize ||
      secret.utf8ByteSize < 43 then none
  else some before

/-- What the query of a credential requires of its lifetime. -/
def withinLifetime (revokedAt expiresAt : Option ℤ) (now : ℤ) : Bool :=
  revokedAt.isNone && expiresAt.all (now < ·)

/-- `authenticateToken`: the query and the update that records the use of the token. -/
def authenticateToken (hashes : Hashes) (tokens : KeyRing) (token requiredScope : String) :
    Caller ApiToken Compared (Except AuthError Principal) where
  read row now :=
    match splitToken token with
    | none => .finished (.error .unauthenticated)
    | some tokenPrefix =>
      if !(row.tokenPrefix = tokenPrefix && withinLifetime row.revokedAt row.expiresAt now &&
          row.workspaceActive) then
        .finished (.error .unauthenticated)
      else if !tokens.verify hashes row.pepperVersion token row.verifier then
        .finished (.error .unauthenticated)
      else if requiredScope ≠ "" && !row.scopes.contains requiredScope then
        .finished (.error .forbidden)
      else
        .pending ⟨tokenPrefix, row.verifier, row.pepperVersion⟩
          (.ok ⟨row.workspaceID, row.scopes⟩)
  update row now compared :=
    if row.tokenPrefix = compared.name ∧ row.verifier = compared.verifier ∧
        row.pepperVersion = compared.pepperVersion then
      let verifier :=
        if row.pepperVersion ≠ tokens.currentVersion then hashes.hmac tokens.current token
        else row.verifier
      some { row with
        lastUsedAt := some now
        verifier := verifier
        pepperVersion := tokens.currentVersion }
    else none

/-- `AuthenticateWorker`: the query and, for an old version, the update of the verifier. -/
def authenticateWorker (hashes : Hashes) (workers : KeyRing) (token : String) :
    Caller WorkerCredential Compared (Except AuthError String) where
  read row now :=
    match splitToken token with
    | none => .finished (.error .unauthenticated)
    | some tokenPrefix =>
      if !(row.tokenPrefix = tokenPrefix && withinLifetime row.revokedAt row.expiresAt now) then
        .finished (.error .unauthenticated)
      else if !workers.verify hashes row.pepperVersion token row.verifier then
        .finished (.error .unauthenticated)
      else if row.pepperVersion ≠ workers.currentVersion then
        .pending ⟨row.id, row.verifier, row.pepperVersion⟩ (.ok row.id)
      else .finished (.ok row.id)
  update row _ compared :=
    if row.id = compared.name ∧ row.verifier = compared.verifier ∧
        row.pepperVersion = compared.pepperVersion then
      some { row with
        verifier := hashes.hmac workers.current token
        pepperVersion := workers.currentVersion }
    else none

section Rotation

variable (hashes : Hashes) (ring : KeyRing) (token : String)

/-- The verifier is that of the token under the pepper of its version, the current one or
the one before. -/
def Matches (verifier : List UInt8) (pepperVersion : ℤ) : Prop :=
  pepperVersion = ring.currentVersion ∧ verifier = hashes.hmac ring.current token ∨
    pepperVersion = ring.currentVersion - 1 ∧ ring.previous ≠ [] ∧
      verifier = hashes.hmac ring.previous token

/-- The verifier was computed under another pepper than the current one. -/
def Outdated (compared : Compared) : Prop := compared.pepperVersion ≠ ring.currentVersion

/-- The row of the tenant token that is presented. -/
structure ApiToken.Valid (first row : ApiToken) : Prop where
  split : splitToken token = some row.tokenPrefix
  matching : Matches hashes ring token row.verifier row.pepperVersion
  workspaceID : row.workspaceID = first.workspaceID
  scopes : row.scopes = first.scopes

/-- The row of the worker credential that is presented. -/
structure WorkerCredential.Valid (first row : WorkerCredential) : Prop where
  split : splitToken token = some row.tokenPrefix
  matching : Matches hashes ring token row.verifier row.pepperVersion
  id : row.id = first.id

/-- The token is unrevoked, unexpired and of an active workspace. -/
def ApiToken.Live (row : ApiToken) (now : ℤ) : Prop :=
  withinLifetime row.revokedAt row.expiresAt now = true ∧ row.workspaceActive = true

/-- The credential is unrevoked and unexpired. -/
def WorkerCredential.Live (row : WorkerCredential) (now : ℤ) : Prop :=
  withinLifetime row.revokedAt row.expiresAt now = true

/-- What a tenant token grants: its principal, or no more than it has in scope. -/
def ApiToken.grants (row : ApiToken) (requiredScope : String) : Except AuthError Principal :=
  if requiredScope ≠ "" ∧ requiredScope ∉ row.scopes then .error .forbidden
  else .ok ⟨row.workspaceID, row.scopes⟩

variable {hashes ring token}

/-- A token that matches a row is accepted under the ring. -/
theorem Matches.verify {verifier : List UInt8} {pepperVersion : ℤ}
    (h : Matches hashes ring token verifier pepperVersion) :
    ring.verify hashes pepperVersion token verifier = true := by
  unfold KeyRing.verify
  rcases h with ⟨rfl, rfl⟩ | ⟨hversion, hprevious, rfl⟩
  · simp
  · rw [if_neg (by omega), if_neg (by simp [hversion, hprevious])]
    simp

/-- Authentication with a tenant token renews its row. -/
theorem authenticateToken_renews (first : ApiToken) (scopes : ℕ → String) :
    Renews (fun c => authenticateToken hashes ring token (scopes c))
      (fun row => ⟨row.tokenPrefix, row.verifier, row.pepperVersion⟩) (Outdated ring)
      (fun c => first.grants (scopes c)) (ApiToken.Valid hashes ring token first)
      ApiToken.Live where
  read c row now hvalid hlive := by
    obtain ⟨hlifetime, hactive⟩ := hlive
    by_cases hscope : scopes c ≠ "" ∧ scopes c ∉ first.scopes
    · left
      simp [authenticateToken, hvalid.split, hlifetime, hactive, hvalid.matching.verify,
        ApiToken.grants, hvalid.scopes, hscope]
    · right
      have hscope' : (scopes c ≠ "" && !first.scopes.contains (scopes c)) = false := by
        simpa using hscope
      simp only [authenticateToken, hvalid.split, hlifetime, hactive, hvalid.matching.verify,
        hvalid.scopes, hvalid.workspaceID, hscope', ApiToken.grants, if_neg hscope]
      simp
  miss c row now compared hvalid hdiffers := by
    refine if_neg fun h => hdiffers ?_
    obtain ⟨hname, hverifier, hversion⟩ := h
    rw [hname, hverifier, hversion]
  hit c row now hvalid := by
    refine ⟨_, if_pos ⟨rfl, rfl, rfl⟩, ⟨hvalid.split, ?_, hvalid.workspaceID, hvalid.scopes⟩,
      fun later hlive => hlive, fun h => h rfl, fun hfresh => ?_⟩
    · rcases hvalid.matching with ⟨hversion, hverifier⟩ | ⟨hversion, _, _⟩
      · exact .inl ⟨rfl, by simp [hversion, hverifier]⟩
      · exact .inl ⟨rfl, if_pos (by omega)⟩
    · have hversion : row.pepperVersion = ring.currentVersion := not_not.mp hfresh
      simp [hversion]

/-- Authentication with a worker credential renews its row. -/
theorem authenticateWorker_renews (first : WorkerCredential) :
    Renews (fun _ => authenticateWorker hashes ring token)
      (fun row => ⟨row.id, row.verifier, row.pepperVersion⟩) (Outdated ring)
      (fun _ => .ok first.id) (WorkerCredential.Valid hashes ring token first)
      WorkerCredential.Live where
  read c row now hvalid hlive := by
    have hlifetime : withinLifetime row.revokedAt row.expiresAt now = true := hlive
    by_cases hversion : row.pepperVersion = ring.currentVersion
    · left
      have hverify := hvalid.matching.verify
      rw [hversion] at hverify
      simp [authenticateWorker, hvalid.split, hlifetime, hverify, hversion, hvalid.id]
    · right
      simp [authenticateWorker, hvalid.split, hlifetime, hvalid.matching.verify, hversion,
        hvalid.id]
  miss c row now compared hvalid hdiffers := by
    refine if_neg fun h => hdiffers ?_
    obtain ⟨hname, hverifier, hversion⟩ := h
    rw [hname, hverifier, hversion]
  hit c row now hvalid := by
    refine ⟨_, if_pos ⟨rfl, rfl, rfl⟩, ⟨hvalid.split, .inl ⟨rfl, rfl⟩, hvalid.id⟩,
      fun later hlive => hlive, fun h => h rfl, fun hfresh => ?_⟩
    have hversion : row.pepperVersion = ring.currentVersion := not_not.mp hfresh
    rcases hvalid.matching with ⟨_, hverifier⟩ | ⟨hold, _, _⟩
    · simp [hversion, hverifier]
    · omega

end Rotation

/-- The calls that present one tenant token, each for a scope, and how they begin. -/
abbrev TenantCalls (hashes : Hashes) (ring : KeyRing) (token : String) (scopes : ℕ → String) :
    ℕ → Caller ApiToken Compared (Except AuthError Principal) :=
  fun c => authenticateToken hashes ring token (scopes c)

/-- The calls that present one worker credential. -/
abbrev WorkerCalls (hashes : Hashes) (ring : KeyRing) (token : String) :
    ℕ → Caller WorkerCredential Compared (Except AuthError String) :=
  fun _ => authenticateWorker hashes ring token

/-- Valid credentials through the rotation of a pepper. In every run the stored verifier
matches the version of its pepper, and every call ends. Every call has what the credential
grants in the runs in which no call renews an outdated verifier that another call has read
and is yet to renew. Such a step leaves a call behind that is refused. -/
theorem pepper_rotation (hashes : Hashes) (ring : KeyRing) (token : String) :
    (∀ (row : ApiToken) (now : ℤ) (scopes : ℕ → String),
      splitToken token = some row.tokenPrefix →
      Matches hashes ring token row.verifier row.pepperVersion → row.Live now →
      Promises (TenantCalls hashes ring token scopes) (.error .unauthenticated) (Outdated ring)
        (fun c => row.grants (scopes c)) (ApiToken.Valid hashes ring token row) ApiToken.Live
        ⟨row, now, fun _ => .waiting⟩) ∧
    (∀ (row : WorkerCredential) (now : ℤ), splitToken token = some row.tokenPrefix →
      Matches hashes ring token row.verifier row.pepperVersion → row.Live now →
      Promises (WorkerCalls hashes ring token) (.error .unauthenticated) (Outdated ring)
        (fun _ => .ok row.id) (WorkerCredential.Valid hashes ring token row)
        WorkerCredential.Live ⟨row, now, fun _ => .waiting⟩) := by
  constructor
  · intro row now scopes hsplit hmatches hlive
    exact (authenticateToken_renews row scopes).promises _ ⟨hsplit, hmatches, rfl, rfl⟩ hlive
  · intro row now hsplit hmatches hlive
    exact (authenticateWorker_renews row).promises _ ⟨hsplit, hmatches, rfl⟩ hlive

/-! ## Two requests after a rotation -/

/-- The digests of one token under an old pepper and a new one. -/
def rotatedHashes : Hashes where
  sha256 text := text
  hmac key _ :=
    if key = "old pepper of at least thirty-two bytes".toUTF8.toList then
      [94, 91, 160, 16, 66, 206, 38, 109, 241, 190, 245, 208, 42, 15, 84, 60, 226, 179, 234,
        47, 4, 197, 23, 87, 198, 109, 244, 30, 171, 130, 174, 129]
    else
      [16, 72, 96, 207, 52, 76, 90, 100, 132, 150, 77, 125, 130, 16, 210, 66, 131, 180, 195,
        155, 117, 26, 142, 128, 46, 96, 27, 99, 35, 112, 218, 43]

/-- The key ring after the rotation. -/
def rotatedRing : KeyRing where
  currentVersion := 2
  current := "new pepper of at least thirty-two bytes".toUTF8.toList
  previous := "old pepper of at least thirty-two bytes".toUTF8.toList

/-- A token that was minted under the old pepper. -/
def rotatedToken : String :=
  "tw_0123456789abcdef.AAAAAAAAAAAAAAAAAAAAAAAAAAAAAAAAAAAAAAAAAAA"

/-- Its row. -/
def rotatedRow : ApiToken where
  tokenPrefix := "tw_0123456789abcdef"
  workspaceID := "workspace"
  verifier := rotatedHashes.hmac rotatedRing.previous rotatedToken
  pepperVersion := 1
  scopes := ["runs:read"]
  revokedAt := none
  expiresAt := none
  lastUsedAt := none
  workspaceActive := true

/-- In the example the token's prefix is the one that its row is found by. -/
theorem rotatedRow_split : splitToken rotatedToken = some rotatedRow.tokenPrefix := by
  decide +kernel

/-- In the example the token matches its row after the rotation. -/
theorem rotatedRow_matches :
    Matches rotatedHashes rotatedRing rotatedToken rotatedRow.verifier rotatedRow.pepperVersion :=
  .inr ⟨by decide, by decide +kernel, rfl⟩

/-- In the example the row is neither revoked nor expired. -/
theorem rotatedRow_live (now : ℤ) : rotatedRow.Live now := ⟨rfl, rfl⟩

/-- The token of the example is a valid one. -/
theorem pepper_rotation_token :
    Promises (TenantCalls rotatedHashes rotatedRing rotatedToken fun _ => "runs:read")
      (.error .unauthenticated) (Outdated rotatedRing) (fun _ => rotatedRow.grants "runs:read")
      (ApiToken.Valid rotatedHashes rotatedRing rotatedToken rotatedRow) ApiToken.Live
      ⟨rotatedRow, 0, fun _ => .waiting⟩ :=
  (pepper_rotation rotatedHashes rotatedRing rotatedToken).1 rotatedRow 0 (fun _ => "runs:read")
    rotatedRow_split rotatedRow_matches (rotatedRow_live 0)

/-- Two calls read the row before one of them renews it, and the other is rejected. -/
theorem concurrent_call_rejected :
    ¬ ∀ s, Relation.ReflTransGen
        (LiveStep (TenantCalls rotatedHashes rotatedRing rotatedToken fun _ => "runs:read")
          (.error .unauthenticated) ApiToken.Live) ⟨rotatedRow, 0, fun _ => .waiting⟩ s →
      ∀ c result, s.progress c = .finished result →
        result = rotatedRow.grants "runs:read" := by
  intro hall
  let callers := TenantCalls rotatedHashes rotatedRing rotatedToken fun _ => "runs:read"
  let next := step callers (.error .unauthenticated)
  let s₁ := next ⟨rotatedRow, 0, fun _ => .waiting⟩ (.run 0)
  let s₂ := next s₁ (.run 1)
  let s₃ := next s₂ (.run 0)
  let s₄ := next s₃ (.run 1)
  have hrun : Relation.ReflTransGen (LiveStep callers (.error .unauthenticated) ApiToken.Live)
      ⟨rotatedRow, 0, fun _ => .waiting⟩ s₄ := by
    refine .tail (.tail (.tail (.single ⟨.run 0, rfl, ?_⟩) ⟨.run 1, rfl, ?_⟩)
      ⟨.run 0, rfl, ?_⟩) ⟨.run 1, rfl, ?_⟩
    all_goals exact ⟨by decide +kernel, by decide +kernel⟩
  have hrefused : s₄.progress 1 = .finished (.error .unauthenticated) := by decide +kernel
  exact absurd (hall s₄ hrun 1 _ hrefused) (by decide +kernel)

end Tracewake.Hosted
