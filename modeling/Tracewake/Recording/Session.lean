import Tracewake.Recording.Redaction
import Tracewake.Recording.Matching
import Tracewake.Effects.Rules

/-!
# Sessions

The state of one recording or replaying run, the index over the recorded events, and the
methods that serve, miss or append. Everything outside the process is reached by a call
that is answered by the world and noted in the machine's list of calls, so that what a
session touched can be stated. Locks are left out: the agent's operations come one after
the other.
-/

namespace Tracewake.Recording

open JsonText
open Results (lessCodePoints)

/-- `RecordMode`. -/
inductive RecordMode where
  | once | none | newEpisodes | all
  deriving DecidableEq

/-- `Intervention`. -/
structure Intervention where
  sourceRunId : Text
  dropTags : List Text
  fromTurn : ℕ
  deriving DecidableEq

/-- What makes `ReplayMiss` be raised, with the values of its message. -/
inductive Miss where
  | request (runId : Text) (request : Request) (remaining recorded : ℕ)
  | noBackend (streaming : Bool) (mode : RecordMode)
  | wasStream (callId : Text)
  | wasNoStream (callId : Text)
  | noToolResult (name id parentCallId runId : Text)
  | toolArgs (name id now recorded runId : Text)
  | noDispatch (name id : Text)
  | outcomeStatus (now recorded : Status)
  | noOutcome (runId : Text)
  | envLeft (runId : Text) (source : EnvironmentSource) (key : Option Text)
  | neverAccessed (path kind : Text)
  | accessedMore (path kind : Text) (recorded : ℕ)
  | wroteOther (path now recorded : Text)
  | readOnly (type runId : Text) (mode : RecordMode)
  deriving DecidableEq

/-- What an operation of the agent can raise. -/
inductive Raised (D : Type) where
  | replayMiss (miss : Miss)
  | fileNotFound (path : Text)
  | outsideRoot (path : Text)
  | blob (error : Store.BlobError D)
  | invalid
  | backend (text : Text)
  deriving DecidableEq

/-- A backend's stream: the chunks that it yields, and what it returns or raises then. -/
structure StreamScript (F D : Type) where
  chunks : List (StreamChunk F)
  finish : Except (Raised D) (Option (ModelResponse F))

/-- The body of a tool. It reads and writes through the session, and it looks at the
world and changes it on its own. -/
inductive ToolBody (F D W : Type) where
  | done (outcome : ToolOutcome)
  | fail (raised : Raised D)
  | act (step : W → W) (next : W → ToolBody F D W)
  | env (source : EnvironmentSource) (key : Option Text) (next : CanonicalValue F → ToolBody F D W)
  | content (root : Option Text) (path : Text) (next : Option (List UInt8) → ToolBody F D W)
  | pathExists (root : Option Text) (path : Text) (next : Bool → ToolBody F D W)
  | listing (root : Option Text) (path : Text) (next : Option (List Text) → ToolBody F D W)
  | write (root : Option Text) (path : Text) (data : List UInt8) (next : ToolBody F D W)

/-- A call that leaves the session: to a backend, to a tool, to the environment or to the
file system. -/
inductive OutsideCall (F : Type) where
  | create (modelId : Text) (messages : List Message) (params : DecodeParams F)
  | stream (modelId : Text) (messages : List Message) (params : DecodeParams F)
  | dispatch (name : Text) (args : CanonicalMapping F)
  | produce (source : EnvironmentSource) (key : Option Text)
  | isFile (path : Text)
  | readBytes (path : Text)
  | pathExists (path : Text)
  | isDir (path : Text)
  | listdir (path : Text)
  | write (path : Text) (data : List UInt8)

/-- What an outside call returns. -/
def OutsideCall.Answer (D W : Type) {F : Type} : OutsideCall F → Type
  | .create _ _ _ => ModelResponse F
  | .stream _ _ _ => StreamScript F D
  | .dispatch _ _ => ToolBody F D W
  | .produce _ _ => CanonicalValue F
  | .isFile _ | .pathExists _ | .isDir _ => Bool
  | .readBytes _ => List UInt8
  | .listdir _ => List Text
  | .write _ _ => Unit

/-- The world: how it answers outside calls, the `meta` of the event that is recorded,
the next `uuid4().hex`, and `resolve`, the target of a path under a root with its path
relative to the root, where it lies inside. -/
structure World (F D W : Type) where
  answer : (call : OutsideCall F) → W → Except (Raised D) (call.Answer D W) × W
  eventMeta : W → EventMeta F
  uuid4 : W → Text × W
  resolve : Text → Text → Option (Text × Text)

/-- The indexes that `_index` builds over recorded events. -/
structure Index (F D : Type) [Python F] where
  calls : List (ModelCallEvent F) := []
  toolCalls : Text × Text → Option (ToolCallEvent F D) := fun _ => none
  env : EnvironmentSource × Option Text → List (CanonicalValue F) := fun _ => []
  reads : ReadKind × Text → List (FsReadEvent F D) := fun _ => []
  writes : Text → List (FsWriteEvent F D) := fun _ => []
  outcome : Option (OutcomeEvent F D) := none

variable {F D W : Type} [Python F]

/-- One event of `_index`. The queues of `_fs` under the kinds of reads and those under
`"write"` are kept apart. -/
def Index.add (index : Index F D) : Event F D → Index F D
  | .modelCall event => { index with calls := index.calls ++ [event] }
  | .toolCall event =>
    { index with toolCalls :=
        Function.update index.toolCalls (event.parentCallId, event.toolCallId) (some event) }
  | .environment event =>
    let slot := (event.source, event.key)
    { index with env := Function.update index.env slot (index.env slot ++ [event.value]) }
  | .fsRead event =>
    let slot := (event.kind, event.path)
    { index with reads := Function.update index.reads slot (index.reads slot ++ [event]) }
  | .fsWrite event =>
    let slot := event.path
    { index with writes := Function.update index.writes slot (index.writes slot ++ [event]) }
  | .outcome event => { index with outcome := some event }
  | .intervention _ => index

/-- `_index`. -/
def Index.build (events : List (Event F D)) : Index F D :=
  events.foldl Index.add {}

/-- `Session`. -/
structure Session (F D : Type) [Python F] where
  runId : Text
  mode : RecordMode
  canReplay : Bool
  redactor : Redactor F D
  intervention : Option Intervention
  matcher : Option (CallMatcher F)
  index : Index F D
  report : ReplayReport
  turn : ℕ := 0
  blocksDropped : ℕ := 0
  currentCallId : Option Text := none
  envCursor : EnvironmentSource × Option Text → ℕ := fun _ => 0
  readCursor : ReadKind × Text → ℕ := fun _ => 0
  writeCursor : Text → ℕ := fun _ => 0
  models : List ModelIdentity := []

namespace Session

/-- `can_record`. -/
def canRecord (session : Session F D) : Bool :=
  session.mode = .all || session.mode = .newEpisodes ||
    (session.mode = .once && !session.canReplay)

/-- `forked`. -/
def forked (session : Session F D) : Bool :=
  session.intervention.isSome

/-- `Session.__init__`: a fork has no outcome to check. -/
def new (runId : Text) (mode : RecordMode) (redactor : Redactor F D) (matchOn : List Matcher)
    (replayEvents : Option (List (Event F D))) (intervention : Option Intervention) :
    Session F D :=
  let index := replayEvents.elim {} Index.build
  let canReplay := replayEvents.isSome
  { runId, mode, canReplay, redactor, intervention
    matcher := replayEvents.map fun _ => ⟨index.calls.map fun call => (call, false), matchOn⟩
    index := if intervention.isSome then { index with outcome := none } else index
    report := {
      recordedCalls := index.calls.length
      canRecord := mode = .all || mode = .newEpisodes || (mode = .once && !canReplay) } }

end Session

/-! ## The machine -/

/-- A session with its store, the world and the calls made to it, and `tool_scope`. -/
structure Machine (F D W : Type) [Python F] where
  session : Session F D
  store : Store F D
  outside : W
  calls : List (OutsideCall F) := []
  scope : Option Text × Option Text := (none, none)

/-- A computation of the process: it changes the machine, and returns or raises. -/
abbrev Py (F D W : Type) [Python F] := Effects.Computation (Machine F D W) (Raised D)

/-- The result of a computation, or what it raised. -/
def attempt {α : Type} (body : Py F D W α) : Py F D W (Except (Raised D) α) :=
  tryCatch (Except.ok <$> body) fun raised => return .error raised

/-- Raise `ReplayMiss`. -/
def miss {α : Type} (reason : Miss) : Py F D W α :=
  throw (.replayMiss reason)

/-- Make a call to the world. -/
def perform (world : World F D W) (call : OutsideCall F) : Py F D W (call.Answer D W) :=
  fun machine =>
    let (answer, outside) := world.answer call machine.outside
    (answer, { machine with outside := outside, calls := machine.calls ++ [call] })

/-- Change the session. -/
def modifySession (change : Session F D → Session F D) : Py F D W Unit :=
  modify fun machine => { machine with session := change machine.session }

def getSession : Py F D W (Session F D) :=
  return (← get).session

/-- `real_uuid4().hex`. -/
def uuid4 (world : World F D W) : Py F D W Text :=
  modifyGet fun machine =>
    let (id, outside) := world.uuid4 machine.outside
    (id, { machine with outside := outside })

variable [Sha256 D] [Pydantic F D] [DecidableEq D]

/-- `_put_blob`. -/
def putBlob (data : List UInt8) : Py F D W (BlobRef D) :=
  modifyGet fun machine =>
    let (ref, store) := machine.store.put (machine.session.redactor.blob data)
    (ref, { machine with store := store })

/-- `blobs.get`. -/
def getBlob (digest : D) : Py F D W (List UInt8) := do
  match (← get).store.get digest with
  | .ok data => return data
  | .error error => throw (.blob error)

/-- `_append`. -/
def append (event : Event F D) : Py F D W Unit := do
  let session ← getSession
  if !session.canRecord then
    miss (.readOnly event.type session.runId session.mode)
  match session.redactor.event event with
  | none => throw .invalid
  | some none => return
  | some (some event) =>
    modify fun machine => { machine with store := machine.store.append session.runId event }

/-- `_turn_messages`. -/
def turnMessages (messages : List Message) : Py F D W (List Message) := do
  let session ← getSession
  modifySession fun session => { session with turn := session.turn + 1 }
  match session.intervention with
  | none => return messages
  | some intervention =>
    if session.turn < intervention.fromTurn then return messages
    let kept := messages.filter fun message =>
      !message.provenance.any intervention.dropTags.contains
    modifySession fun session =>
      let dropped := session.blocksDropped + (messages.length - kept.length)
      { session with
        blocksDropped := dropped, report := { session.report with blocksDropped := dropped } }
    return kept

/-! ## The environment -/

/-- `_pop_env`. A variable of the environment is looked up by name, so its last value
serves further reads. -/
def popEnv (source : EnvironmentSource) (key : Option Text) :
    Py F D W (Option (CanonicalValue F)) := do
  let session ← getSession
  let values := session.index.env (source, key)
  let index := session.envCursor (source, key)
  match values[index]? with
  | some value =>
    modifySession fun session =>
      { session with envCursor := Function.update session.envCursor (source, key) (index + 1) }
    return some value
  | none => return if source = .env then values.getLast? else none

/-- The recorded value that `env_value` serves. -/
def recordedEnv (source : EnvironmentSource) (key : Option Text) :
    Py F D W (Option (CanonicalValue F)) := do
  let session ← getSession
  if session.canReplay && !session.forked then popEnv source key else return none

/-- `env_value`. -/
def envValue (world : World F D W) (source : EnvironmentSource) (key : Option Text) :
    Py F D W (CanonicalValue F) := do
  match ← recordedEnv source key with
  | some value =>
    let session ← getSession
    return if source = .env then session.redactor.restorePath value else value
  | none =>
    let session ← getSession
    if !session.canRecord then miss (.envLeft session.runId source key)
    let value : CanonicalValue F ← perform world (.produce source key)
    let machine ← get
    append (.environment {
      source, key, value
      parentCallId := machine.session.currentCallId
      toolCallId := machine.scope.2
      eventMeta := world.eventMeta machine.outside })
    return value

/-! ## The file system -/

/-- `_scope_fields`. -/
def scopeFields (world : World F D W) : Py F D W (EventBase F) := do
  let machine ← get
  let parent := machine.scope.1.filter fun id => id ≠ []
  return {
    parentCallId := parent.or machine.session.currentCallId
    toolCallId := machine.scope.2
    eventMeta := world.eventMeta machine.outside }

/-- The two ways of running out in `_replay_fs`. -/
def missFs (path kind : Text) (recorded : ℕ) : Py F D W Unit := do
  let session ← getSession
  if !session.canRecord then
    if recorded = 0 then miss (.neverAccessed path kind)
    else miss (.accessedMore path kind recorded)

/-- `_replay_fs` for the kinds of reads. -/
def replayRead (kind : ReadKind) (path : Text) : Py F D W (Option (FsReadEvent F D)) := do
  let session ← getSession
  if !session.canReplay || session.forked then return none
  let entries := session.index.reads (kind, path)
  let index := session.readCursor (kind, path)
  match entries[index]? with
  | some entry =>
    modifySession fun session =>
      { session with readCursor := Function.update session.readCursor (kind, path) (index + 1) }
    return some entry
  | none =>
    missFs path kind.text entries.length
    return none

/-- `_replay_fs("write", path)`. -/
def replayWrite (path : Text) : Py F D W (Option (FsWriteEvent F D)) := do
  let session ← getSession
  if !session.canReplay || session.forked then return none
  let entries := session.index.writes path
  let index := session.writeCursor path
  match entries[index]? with
  | some entry =>
    modifySession fun session =>
      { session with writeCursor := Function.update session.writeCursor path (index + 1) }
    return some entry
  | none =>
    missFs path "write".toList entries.length
    return none

/-- `_locate`: the key of a path in the recording and its target. -/
def locate (world : World F D W) (root : Option Text) (path : Text) : Py F D W (Text × Text) := do
  let session ← getSession
  match root with
  | none => return (session.redactor.text path, path)
  | some root =>
    match world.resolve root path with
    | none => throw (.outsideRoot path)
    | some (target, relative) => return (session.redactor.text relative, target)

/-- `read_bytes`. -/
def readBytes (world : World F D W) (root : Option Text) (path : Text) :
    Py F D W (List UInt8) := do
  let (key, target) ← locate world root path
  match ← replayRead .content key with
  | some recorded =>
    match recorded.found, recorded.content with
    | true, some content => getBlob content.digest
    | _, _ => throw (.fileNotFound key)
  | none =>
    let found : Bool ← perform world (.isFile target)
    if found then
      let data : List UInt8 ← perform world (.readBytes target)
      let content ← putBlob data
      let base ← scopeFields world
      append (.fsRead { base with path := key, kind := .content, found, content := some content })
      return data
    else
      let base ← scopeFields world
      append (.fsRead { base with path := key, kind := .content, found, content := none })
      throw (.fileNotFound key)

/-- `exists`. -/
def fileExists (world : World F D W) (root : Option Text) (path : Text) : Py F D W Bool := do
  let (key, target) ← locate world root path
  match ← replayRead .exists key with
  | some recorded => return recorded.found
  | none =>
    let found : Bool ← perform world (.pathExists target)
    let base ← scopeFields world
    append (.fsRead { base with path := key, kind := .exists, found, content := none })
    return found

/-- The bytes of a listing. -/
def listingBytes (F : Type) [Python F] (names : List Text) : List UInt8 :=
  Utf8.encode (canonicalJson (list (F := F) .str names))

/-- `list(json.loads(...))` of a listing. -/
def listingNames (F : Type) [Python F] (data : List UInt8) : Option (List Text) := do
  let text ← Utf8.decode none data
  match ← loads (F := F) text with
  | .arr items => items.mapM fun item => match item with
    | .str name => some name
    | _ => none
  | _ => none

/-- `listdir`. -/
def listDir (world : World F D W) (root : Option Text) (path : Text) :
    Py F D W (List Text) := do
  let (key, target) ← locate world root path
  match ← replayRead .listing key with
  | some recorded =>
    match recorded.found, recorded.content with
    | true, some content =>
      let data ← getBlob content.digest
      match listingNames F data with
      | some names => return names
      | none => throw .invalid
    | _, _ => throw (.fileNotFound key)
  | none =>
    let found : Bool ← perform world (.isDir target)
    if found then
      let names : List Text ← perform world (.listdir target)
      let names := names.mergeSort fun a b => !lessCodePoints b a
      let content ← putBlob (listingBytes F names)
      let base ← scopeFields world
      append (.fsRead { base with path := key, kind := .listing, found, content := some content })
      return names
    else
      let base ← scopeFields world
      append (.fsRead { base with path := key, kind := .listing, found, content := none })
      throw (.fileNotFound key)

/-- `write_bytes`. -/
def writeBytes (world : World F D W) (root : Option Text) (path : Text) (data : List UInt8) :
    Py F D W Unit := do
  let (key, target) ← locate world root path
  match ← replayWrite key with
  | some recorded =>
    let session ← getSession
    let digest : D := Sha256.hash (session.redactor.blob data)
    if digest ≠ recorded.content.digest then
      miss (.wroteOther key (Sha256.hex digest) (Sha256.hex recorded.content.digest))
  | none =>
    let _ : Unit ← perform world (.write target data)
    let content ← putBlob data
    let base ← scopeFields world
    append (.fsWrite { base with path := key, content })

/-! ## Tools -/

/-- A read as a tool's body sees it: a missing file is no error of the body. -/
def orMissing {α : Type} (read : Py F D W α) : Py F D W (Option α) :=
  tryCatch (some <$> read) fun raised => match raised with
    | .fileNotFound _ => return none
    | raised => throw raised

/-- Run the body of a tool. -/
def ToolBody.run (world : World F D W) : ToolBody F D W → Py F D W ToolOutcome
  | .done outcome => return outcome
  | .fail raised => throw raised
  | .act step next => do
    modify fun machine => { machine with outside := step machine.outside }
    (next (← get).outside).run world
  | .env source key next => do
    let value ← envValue world source key
    (next value).run world
  | .content root path next => do
    let data ← orMissing (readBytes world root path)
    (next data).run world
  | .pathExists root path next => do
    let found ← fileExists world root path
    (next found).run world
  | .listing root path next => do
    let names ← orMissing (listDir world root path)
    (next names).run world
  | .write root path data next => do
    writeBytes world root path data
    next.run world

/-- The recorded result that `_call` serves for the arguments. -/
def recordedTool (parentCallId : Text) (request : ToolCallRequest F) :
    Py F D W (Option (ToolCallEvent F D)) := do
  let session ← getSession
  return if session.forked then none else session.index.toolCalls (parentCallId, request.id)

/-- `Tools._call`. -/
def callTool (world : World F D W) (dispatch : Bool) (parentCallId : Text)
    (request : ToolCallRequest F) : Py F D W ToolOutcome := do
  let session ← getSession
  let storedArgs := session.redactor.args request.args
  let argsHash := hashArgs D storedArgs
  let recorded ← recordedTool parentCallId request
  match recorded.filter fun recorded => argsHash = recorded.argsHash with
  | some recorded =>
    modifySession fun session => { session with report :=
      { session.report with toolCallsReplayed := session.report.toolCallsReplayed + 1 } }
    let data ← getBlob recorded.result.digest
    match Utf8.decode none data with
    | some content => return { content, status := recorded.status, error := recorded.error }
    | none => throw .invalid
  | none =>
    if !session.canRecord then
      match recorded with
      | none => miss (.noToolResult request.name request.id parentCallId session.runId)
      | some recorded =>
        miss (.toolArgs request.name request.id argsHash recorded.argsHash session.runId)
    if !dispatch then miss (.noDispatch request.name request.id)
    let body : ToolBody F D W ← perform world (.dispatch request.name request.args)
    let outcome ← body.run world
    let result ← putBlob (Utf8.encode outcome.content)
    let machine ← get
    append (.toolCall {
      parentCallId, toolCallId := request.id, batchIndex := request.batchIndex
      name := request.name, args := storedArgs, argsHash, result
      status := outcome.status, error := outcome.error
      eventMeta := world.eventMeta machine.outside })
    return outcome

/-- `Tools.call`: the scope is put back also when the call raises. -/
def toolsCall (world : World F D W) (dispatch : Bool) (parentCallId : Text)
    (request : ToolCallRequest F) : Py F D W ToolOutcome := do
  let scope := (← get).scope
  modify fun machine => { machine with scope := (some parentCallId, some request.id) }
  let outcome ← attempt (callTool world dispatch parentCallId request)
  modify fun machine => { machine with scope := scope }
  match outcome with
  | .ok outcome => return outcome
  | .error raised => throw raised

end Tracewake.Recording
