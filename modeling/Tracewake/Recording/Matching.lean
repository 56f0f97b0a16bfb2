import Tracewake.Recording.Store

/-!
# Matching of requests

A replay serves a request with the first recorded call that is not consumed and that
satisfies every configured predicate.
-/

namespace Tracewake.Recording

open JsonText

variable {F D : Type} [Python F] [Sha256 D]

/-- `Request`. -/
structure Request where
  modelId : Text
  messagesHash : Text
  systemHash : Text
  toolNames : Option (List Text)
  deriving DecidableEq

/-- `ReplayReport`. -/
structure ReplayReport where
  recordedCalls : ℕ := 0
  matched : ℕ := 0
  degraded : ℕ := 0
  missed : ℕ := 0
  recordedNew : ℕ := 0
  toolCallsReplayed : ℕ := 0
  misses : List (Text × Text) := []
  canRecord : Bool := true
  blocksDropped : ℕ := 0
  deriving DecidableEq

/-- The names of `PREDICATES`. -/
inductive Matcher where
  | model | messagesHash | systemPrompt | toolNames | ordinal
  deriving DecidableEq

/-- `_system_hash`. -/
def systemHash (D : Type) [Sha256 D] (messages : List Message) : Text :=
  sha256Hex D (Utf8.encode ((messages.filter fun message => message.role = .system).flatMap
    fun message => message.content))

/-- `build_request`. -/
def buildRequest (F D : Type) [Python F] [Sha256 D] (modelId : Text) (messages : List Message)
    (tools : Option (List Text)) : Request where
  modelId := modelId
  messagesHash := hashMessages F D messages
  systemHash := systemHash D messages
  toolNames := tools

/-- The entries of `PREDICATES`. -/
def Matcher.holds (D : Type) [Sha256 D] (recorded : ModelCallEvent F) (request : Request) :
    Matcher → Bool
  | .model => recorded.modelId = request.modelId
  | .messagesHash => recorded.messagesHash = request.messagesHash
  | .systemPrompt => systemHash D recorded.messages = request.systemHash
  | .toolNames => recorded.tools = request.toolNames
  | .ordinal => true

/-- `CallMatcher`: the recorded calls, each with its mark in `_consumed`. -/
structure CallMatcher (F : Type) [Python F] where
  calls : List (ModelCallEvent F × Bool)
  matchOn : List Matcher

/-- `proves_request_identity`. -/
def CallMatcher.provesIdentity (matcher : CallMatcher F) : Bool :=
  matcher.matchOn.contains .messagesHash

/-- The recorded call satisfies the predicates that are matched on. -/
def CallMatcher.accepts (D : Type) [Sha256 D] (matcher : CallMatcher F) (request : Request)
    (recorded : ModelCallEvent F) : Bool :=
  matcher.matchOn.all fun m => m.holds D recorded request

/-- The scan of `match`: the first call that is free and accepted, and the calls with it
consumed. -/
def serve (accepts : ModelCallEvent F → Bool) :
    List (ModelCallEvent F × Bool) → Option (ModelCallEvent F × List (ModelCallEvent F × Bool))
  | [] => none
  | (recorded, consumed) :: rest =>
    if consumed = false ∧ accepts recorded = true then some (recorded, (recorded, true) :: rest)
    else (serve accepts rest).map fun found => (found.1, (recorded, consumed) :: found.2)

/-- `match`. -/
def CallMatcher.serve (D : Type) [Sha256 D] (matcher : CallMatcher F) (request : Request)
    (report : ReplayReport) : Option (ModelCallEvent F) × CallMatcher F × ReplayReport :=
  match Recording.serve (matcher.accepts D request) matcher.calls with
  | some (recorded, calls) =>
    let report :=
      if matcher.provesIdentity then { report with matched := report.matched + 1 }
      else { report with degraded := report.degraded + 1 }
    (some recorded, { matcher with calls := calls }, report)
  | none =>
    (none, matcher, { report with
      missed := report.missed + 1
      misses := report.misses ++ [(request.modelId, request.messagesHash)] })

/-- The scan leaves the calls as they are, and what it finds is one of them. The induction is
on the calls. -/
theorem serve_found {accepts : ModelCallEvent F → Bool} {slots : List (ModelCallEvent F × Bool)}
    {recorded : ModelCallEvent F} {calls : List (ModelCallEvent F × Bool)}
    (h : serve accepts slots = some (recorded, calls)) :
    (calls.map fun call => call.1) = (slots.map fun call => call.1) ∧
      ∃ slot ∈ slots, slot.1 = recorded := by
  induction slots generalizing calls with
  | nil => cases h
  | cons slot rest ih =>
    obtain ⟨first, consumed⟩ := slot
    rw [serve] at h
    split at h
    · cases h
      exact ⟨rfl, _, List.mem_cons_self, rfl⟩
    · obtain ⟨⟨found, later⟩, hfound, hcase⟩ := Option.map_eq_some_iff.mp h
      cases hcase
      obtain ⟨hcalls, slot, hslot, hrecorded⟩ := ih hfound
      exact ⟨congrArg (first :: ·) hcalls, slot, List.mem_cons_of_mem _ hslot, hrecorded⟩

namespace CallMatcher

variable {matcher : CallMatcher F} {request : Request} {report : ReplayReport}

/-- Serving a request marks a call, and changes none of them. -/
theorem serve_calls : ((matcher.serve D request report).2.1.calls.map fun call => call.1) =
    matcher.calls.map fun call => call.1 := by
  rw [CallMatcher.serve]
  split
  · next recorded calls hfound => exact (serve_found hfound).1
  · rfl

/-- What is served is one of the recorded calls. -/
theorem mem_of_serve {call : ModelCallEvent F}
    (h : (matcher.serve D request report).1 = some call) :
    ∃ slot ∈ matcher.calls, slot.1 = call := by
  rw [CallMatcher.serve] at h
  split at h
  · next recorded calls hfound =>
    cases h
    exact (serve_found hfound).2
  · cases h

end CallMatcher

/-- The number of calls that are not consumed. -/
def CallMatcher.remaining (matcher : CallMatcher F) : ℕ :=
  (matcher.calls.filter fun call => call.2 = false).length

end Tracewake.Recording
