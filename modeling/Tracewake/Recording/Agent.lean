import Tracewake.Recording.Session

/-!
# Agents

Model calls, streams and the outcome, and an agent as an interaction tree over the
operations of a session.
-/

namespace Tracewake.Recording

open JsonText
open Results (lessCodePoints)

variable {F D W : Type} [Python F] [Sha256 D] [Pydantic F D] [DecidableEq D]

/-! ## Model calls -/

/-- The arguments of a model call, with the handle that `model()` returned. -/
structure ModelRequest (F : Type) where
  identity : ModelIdentity
  hasBackend : Bool
  messages : List Message
  tools : Option (List Text)
  params : DecodeParams F

/-- `_saw_model`. -/
def sawModel (identity : ModelIdentity) : Py F D W Unit :=
  modifySession fun session =>
    { session with models := session.models.filter (· ≠ identity) ++ [identity] }

/-- `_matched`. -/
def matched (request : ModelRequest F) (messages : List Message) :
    Py F D W (Option (ModelCallEvent F)) := do
  let session ← getSession
  match session.matcher with
  | none => return none
  | some matcher =>
    match session.redactor.messages messages with
    | none => throw .invalid
    | some redacted =>
      let asked := buildRequest F D request.identity.modelId redacted request.tools
      let (hit, matcher, report) := matcher.serve D asked session.report
      modifySession fun session => { session with matcher := some matcher, report := report }
      if hit.isNone && !session.canRecord then
        miss (.request session.runId asked matcher.remaining matcher.calls.length)
      return hit

/-- `_append_model_call`: building the event raises where the stream does not reassemble. -/
def appendModelCall (world : World F D W) (callId : Text) (request : ModelRequest F)
    (messages : List Message) (response : ModelResponse F) (stream : Option (StreamRecord F)) :
    Py F D W Unit := do
  let machine ← get
  match machine.session.redactor.messages messages with
  | none => throw .invalid
  | some stored =>
    if reassembles : StreamReassembles stream response then
      append (.modelCall {
        callId, provider := request.identity.provider, modelId := request.identity.modelId
        modelVersion := request.identity.modelVersion, params := request.params
        tools := request.tools, messages := stored, messagesHash := hashMessages F D stored
        response, stream, reassembles
        parentCallId := machine.session.currentCallId
        eventMeta := world.eventMeta machine.outside })
      modifySession fun session => { session with
        currentCallId := some callId
        report :=
          if session.canReplay then
            { session.report with recordedNew := session.report.recordedNew + 1 }
          else session.report }
    else throw .invalid

/-- `Completion`. -/
structure Completion (F : Type) where
  callId : Text
  response : ModelResponse F

/-- `Model.create`. -/
def Model.create (world : World F D W) (request : ModelRequest F) : Py F D W (Completion F) := do
  let messages ← turnMessages request.messages
  match ← matched request messages with
  | some hit =>
    modifySession fun session => { session with currentCallId := some hit.callId }
    if hit.stream.isSome then miss (.wasStream hit.callId)
    return { callId := hit.callId, response := hit.response }
  | none =>
    let session ← getSession
    if !request.hasBackend then miss (.noBackend false session.mode)
    let response : ModelResponse F ←
      perform world (.create request.identity.modelId messages request.params)
    let callId ← uuid4 world
    appendModelCall world callId request messages response none
    return { callId, response }

/-! ## Streams -/

/-- What `finalize` of a stream does. -/
inductive Finalize (F : Type) [Python F] where
  | recorded (response : ModelResponse F)
  | live (request : ModelRequest F) (messages : List Message)

/-- `StreamHandle` with its source: `returned` is `source.response`. -/
structure StreamHandle (F D : Type) [Python F] where
  callId : Text
  source : StreamScript F D
  returned : Option (ModelResponse F) := none
  onFinish : Finalize F
  chunks : List (StreamChunk F) := []
  response : Option (ModelResponse F) := none

/-- The tool calls in the deltas of a stream that has no response. -/
def deltaCalls (chunks : List (StreamChunk F)) : List (ToolCallRequest F) :=
  let found := chunks.filterMap fun chunk => chunk.toolCallDelta.bind fun delta =>
    (delta.get? "id".toList).map fun id => (id, delta)
  found.mapIdx fun index (id, delta) =>
    { id := Python.str id
      name := ((delta.get? "name".toList).map Python.str).getD []
      args := match delta.get? "args".toList with
        | some (.obj fields) => ⟨Json.canonFields lessCodePoints fields, canonFields_canonical fields⟩
        | _ => .empty
      batchIndex := index }

/-- The response of a stream whose backend returned none. -/
def partialResponse (chunks : List (StreamChunk F)) : ModelResponse F where
  text := chunks.flatMap fun chunk => chunk.textDelta
  toolCalls := deltaCalls chunks
  finishReason := "error".toList

/-- `finalize`. -/
def StreamHandle.finalize (world : World F D W) (handle : StreamHandle F D) :
    Py F D W (ModelResponse F) := do
  match handle.onFinish with
  | .recorded response => return response
  | .live request messages =>
    let response := handle.returned.getD (partialResponse handle.chunks)
    appendModelCall world handle.callId request messages response (some ⟨handle.chunks⟩)
    return response

/-- `Model.stream`. -/
def Model.stream (world : World F D W) (request : ModelRequest F) : Py F D W (StreamHandle F D) := do
  let messages ← turnMessages request.messages
  match ← matched request messages with
  | some hit =>
    modifySession fun session => { session with currentCallId := some hit.callId }
    match hit.stream with
    | none => miss (.wasNoStream hit.callId)
    | some recorded =>
      return {
        callId := hit.callId, source := ⟨recorded.chunks, .ok none⟩
        onFinish := .recorded hit.response }
  | none =>
    let callId ← uuid4 world
    let session ← getSession
    if !request.hasBackend then miss (.noBackend true session.mode)
    let source : StreamScript F D ←
      perform world (.stream request.identity.modelId messages request.params)
    return { callId, source, onFinish := .live request messages }

/-- What a step of a stream came to: a chunk, the end, or an exception. -/
inductive StreamStep (F D : Type) where
  | chunk (chunk : StreamChunk F)
  | stop
  | raised (raised : Raised D)

/-- `__next__`. -/
def StreamHandle.next (world : World F D W) (handle : StreamHandle F D) :
    Py F D W (StreamStep F D × StreamHandle F D) := do
  if handle.response.isSome then return (.stop, handle)
  match handle.source.chunks with
  | chunk :: rest =>
    return (.chunk chunk, { handle with
      source := { handle.source with chunks := rest }, chunks := handle.chunks ++ [chunk] })
  | [] =>
    match handle.source.finish with
    | .ok returned =>
      let handle := { handle with returned := handle.returned.or returned }
      match ← attempt (handle.finalize world) with
      | .ok response => return (.stop, { handle with response := some response })
      | .error raised => return (.raised raised, handle)
    | .error raised =>
      let handle := { handle with source := { handle.source with finish := .ok none } }
      match ← attempt (handle.finalize world) with
      | .ok response => return (.raised raised, { handle with response := some response })
      | .error raised => return (.raised raised, handle)

/-- The loop of `drain` over the chunks that are left. -/
def StreamHandle.drainFrom (world : World F D W) :
    List (StreamChunk F) → StreamHandle F D → Py F D W (StreamStep F D × StreamHandle F D)
  | [], handle => handle.next world
  | _ :: rest, handle => do
    let (_, handle) ← handle.next world
    drainFrom world rest handle

/-- `drain`. -/
def StreamHandle.drain (world : World F D W) (handle : StreamHandle F D) :
    Py F D W (StreamStep F D × StreamHandle F D) :=
  if handle.response.isSome then return (.stop, handle)
  else drainFrom world handle.source.chunks handle

/-- `__exit__`, which never suppresses an exception. -/
def StreamHandle.exit (world : World F D W) (exception : Bool) (handle : StreamHandle F D) :
    Py F D W (StreamStep F D × StreamHandle F D) := do
  if handle.response.isSome then return (.stop, handle)
  if exception then
    match ← attempt (handle.finalize world) with
    | .ok response => return (.stop, { handle with response := some response })
    | .error raised => return (.raised raised, handle)
  else handle.drain world

/-! ## The outcome -/

/-- The arguments of `outcome`. -/
structure OutcomeArgs where
  status : Status
  error : Option Text := none
  usage : Usage := {}
  coverage : Option Bool := none
  resolve : Option Bool := none
  patch : Option Text := none
  testSummary : Option Text := none
  deriving DecidableEq

/-- The event that `outcome` builds, `_append`s and keeps. -/
def recordOutcome (world : World F D W) (args : OutcomeArgs) : Py F D W Unit := do
  let patch ← args.patch.mapM fun patch => putBlob (Utf8.encode patch)
  let machine ← get
  let event : OutcomeEvent F D := {
    status := args.status, error := args.error, usage := args.usage, coverage := args.coverage
    resolve := args.resolve, patch, testSummary := args.testSummary
    parentCallId := machine.session.currentCallId
    eventMeta := world.eventMeta machine.outside }
  append (.outcome event)
  modifySession fun session =>
    { session with index := { session.index with outcome := some event } }

/-- `Session.outcome`. -/
def Session.outcome (world : World F D W) (args : OutcomeArgs) : Py F D W Unit := do
  let session ← getSession
  match session.index.outcome with
  | some recorded =>
    if args.status ≠ recorded.status then miss (.outcomeStatus args.status recorded.status)
    if session.canRecord then recordOutcome world args
  | none =>
    if !session.canRecord then miss (.noOutcome session.runId)
    recordOutcome world args

/-! ## Runs of a session -/

/-- `finish_run`. -/
def Store.finishRun (store : Store F D) (runId : Text) (status : RunStatus) (finishedAt : F)
    (models : List ModelIdentity) : Store F D :=
  let finish (run : RunHeader F) : RunHeader F :=
    if run.runId = runId then
      { run with status := status, finishedAt := some finishedAt, models := models }
    else run
  { store with runs := store.runs.map finish }

/-- `_open_session` without an intervention: `found` is what `find` returned for the
name, `fresh` the header of a new run. The header of a recording says how it is redacted. -/
def openSession (store : Store F D) (found : Option (RunHeader F)) (fresh : RunHeader F)
    (mode : RecordMode) (redactor : Redactor F D) (matchOn : List Matcher) :
    Option (Session F D × Store F D) :=
  match if mode = .all then none else found with
  | none =>
    if mode = .none then none
    else
      let session := Session.new fresh.runId mode redactor matchOn none none
      some (session, { store with runs := store.runs ++ [fresh] })
  | some header => do
    let events ← store.events header.runId
    let redactor := { redactor with enabled := header.redacted }
    let replayEvents := some (events.map fun stored => stored.event)
    return (Session.new header.runId mode redactor matchOn replayEvents none, store)

/-- The end of `_open_session`. -/
def closeSession (world : World F D W) (exceptional : Bool) (machine : Machine F D W) :
    Machine F D W :=
  if machine.session.canRecord then
    let status := if exceptional then RunStatus.error else RunStatus.ok
    let finishedAt := (world.eventMeta machine.outside).recordedAt
    let session := machine.session
    { machine with store := machine.store.finishRun session.runId status finishedAt session.models }
  else machine

/-- What code with a session can do. Streams are used by their handles, which are
numbered as they are opened. -/
inductive Operation (F : Type) where
  | model (identity : ModelIdentity)
  | create (request : ModelRequest F)
  | stream (request : ModelRequest F)
  | next (handle : ℕ)
  | drain (handle : ℕ)
  | exit (handle : ℕ) (exception : Bool)
  | tool (dispatch : Bool) (parentCallId : Text) (request : ToolCallRequest F)
  | env (source : EnvironmentSource) (key : Option Text)
  | content (root : Option Text) (path : Text)
  | pathExists (root : Option Text) (path : Text)
  | listing (root : Option Text) (path : Text)
  | write (root : Option Text) (path : Text) (data : List UInt8)
  | outcome (args : OutcomeArgs)

/-- Use one of the open handles. -/
def useHandle (handles : List (StreamHandle F D)) (index : ℕ)
    (step : StreamHandle F D → Py F D W (StreamStep F D × StreamHandle F D)) :
    Py F D W (List (StreamHandle F D)) :=
  match handles[index]? with
  | none => return handles
  | some handle => do
    let (_, handle) ← step handle
    return handles.set index handle

/-- Run one operation on the handles that are open. -/
def Operation.run (world : World F D W) (handles : List (StreamHandle F D)) :
    Operation F → Py F D W (List (StreamHandle F D))
  | .model identity => do sawModel identity; return handles
  | .create request => do let _ ← Model.create world request; return handles
  | .stream request => do let handle ← Model.stream world request; return handles ++ [handle]
  | .next index => useHandle handles index (StreamHandle.next world)
  | .drain index => useHandle handles index (StreamHandle.drain world)
  | .exit index exception => useHandle handles index (StreamHandle.exit world exception)
  | .tool dispatch parentCallId request => do
    let _ ← toolsCall world dispatch parentCallId request
    return handles
  | .env source key => do let _ ← envValue world source key; return handles
  | .content root path => do let _ ← readBytes world root path; return handles
  | .pathExists root path => do let _ ← fileExists world root path; return handles
  | .listing root path => do let _ ← listDir world root path; return handles
  | .write root path data => do writeBytes world root path data; return handles
  | .outcome args => do Session.outcome world args; return handles

/-- Run operations one after the other, whatever they raise. -/
def runOperations (world : World F D W) :
    List (Operation F) → List (StreamHandle F D) → Machine F D W → Machine F D W
  | [], _, machine => machine
  | operation :: rest, handles, machine =>
    match operation.run world handles machine with
    | (.ok handles, machine) => runOperations world rest handles machine
    | (.error _, machine) => runOperations world rest handles machine

end Tracewake.Recording
