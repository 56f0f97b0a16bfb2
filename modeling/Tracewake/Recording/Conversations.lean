import Tracewake.Recording.Taping

/-!
# Agents and their recordings

A sequential agent as an interaction tree over the operations of a session, and what a new
run holds after the agent was recorded: for each operation the events that it appended,
with everything that a replay will look up.
-/

namespace Tracewake.Recording

open JsonText Effects
open Results (lessCodePoints)

variable {F D W : Type} [Python F]

/-! ## Agents -/

/-- An agent that makes one call after the other and consumes each stream before it goes
on. What it does next depends on the answers that it got. -/
inductive Agent (F : Type) [Python F] where
  | done
  | create (request : ModelRequest F) (next : Completion F → Agent F)
  | stream (request : ModelRequest F)
      (next : Text → List (StreamChunk F) → ModelResponse F → Agent F)
  | tool (parentCallId : Text) (request : ToolCallRequest F) (next : ToolOutcome → Agent F)
  | env (source : EnvironmentSource) (key : Option Text) (next : CanonicalValue F → Agent F)
  | content (root : Option Text) (path : Text) (next : Option (List UInt8) → Agent F)
  | pathExists (root : Option Text) (path : Text) (next : Bool → Agent F)
  | listing (root : Option Text) (path : Text) (next : Option (List Text) → Agent F)
  | write (root : Option Text) (path : Text) (data : List UInt8) (next : Agent F)
  | outcome (args : OutcomeArgs) (next : Agent F)

/-- What an agent is answered. A missing file is an answer. -/
inductive Answer (F : Type) where
  | completion (callId : Text) (response : ModelResponse F)
  | streamed (callId : Text) (chunks : List (StreamChunk F)) (response : ModelResponse F)
  | tool (outcome : ToolOutcome)
  | env (value : CanonicalValue F)
  | content (data : Option (List UInt8))
  | pathExists (found : Bool)
  | listing (names : Option (List Text))
  | written
  | closed

/-- The bytes of an answer that a recording keeps in a blob. -/
def Answer.blobs : Answer F → List (List UInt8)
  | .tool outcome => [Utf8.encode outcome.content]
  | .content data => data.toList
  | .listing names => names.toList.map (listingBytes F)
  | _ => []

variable [Sha256 D] [Pydantic F D] [DecidableEq D]

/-- Consume a stream: its chunks and its response. -/
def consume (world : World F D W) (request : ModelRequest F) :
    Py F D W (Text × List (StreamChunk F) × ModelResponse F) := do
  let handle ← Model.stream world request
  let (step, handle) ← handle.drain world
  match step, handle.response with
  | .raised raised, _ => throw raised
  | _, some response => return (handle.callId, handle.chunks, response)
  | _, none => throw .invalid

/-- Run an agent: `live` says whether backends and tools are there to be called. -/
def Agent.run (world : World F D W) (live : Bool) : Agent F → Py F D W (List (Answer F))
  | .done => return []
  | .create request next => do
    let completion ← Model.create world { request with hasBackend := live }
    let rest ← (next completion).run world live
    return .completion completion.callId completion.response :: rest
  | .stream request next => do
    let (callId, chunks, response) ← consume world { request with hasBackend := live }
    let rest ← (next callId chunks response).run world live
    return .streamed callId chunks response :: rest
  | .tool parentCallId request next => do
    let outcome ← toolsCall world live parentCallId request
    let rest ← (next outcome).run world live
    return .tool outcome :: rest
  | .env source key next => do
    let value ← envValue world source key
    let rest ← (next value).run world live
    return .env value :: rest
  | .content root path next => do
    let data ← orMissing (readBytes world root path)
    let rest ← (next data).run world live
    return .content data :: rest
  | .pathExists root path next => do
    let found ← fileExists world root path
    let rest ← (next found).run world live
    return .pathExists found :: rest
  | .listing root path next => do
    let names ← orMissing (listDir world root path)
    let rest ← (next names).run world live
    return .listing names :: rest
  | .write root path data next => do
    writeBytes world root path data
    let rest ← next.run world live
    return .written :: rest
  | .outcome args next => do
    Session.outcome world args
    let rest ← next.run world live
    return .closed :: rest

section Recording

variable {runs : List (RunHeader F)} {runId : Text} {events : List (Event F D)}
  {machine machine' : Machine F D W} (world : World F D W)

/-! ## Tools -/

/-- What a tool call recorded. -/
structure ToolTaped (parentCallId : Text) (request : ToolCallRequest F) (outcome : ToolOutcome)
    (event : ToolCallEvent F D) : Prop where
  parent : event.parentCallId = parentCallId
  id : event.toolCallId = request.id
  arguments : event.args = request.args
  args : event.argsHash = hashArgs D request.args
  result : event.result.digest = Sha256.hash (Utf8.encode outcome.content)
  status : event.status = outcome.status
  error : event.error = outcome.error

/-- A tool that returned left what it read and wrote in the log, and then its result. -/
theorem toolsCall_taped (hworld : world.Normal) (h : Taping runs runId events machine)
    {parentCallId : Text} {request : ToolCallRequest F} {outcome : ToolOutcome}
    (hrun : toolsCall world true parentCallId request machine = (.ok outcome, machine')) :
    ∃ (inner : List (Event F D)) (event : ToolCallEvent F D),
      Taped runs runId events machine (inner ++ [.toolCall event]) machine' ∧
      OfTool (some request.id) inner ∧ ToolTaped parentCallId request outcome event ∧
      machine'.store.Has (Utf8.encode outcome.content) := by
  have hin : Taping runs runId events (machine.inTool parentCallId request.id) :=
    h.elsewhere rfl rfl
  have hargs : (machine.inTool parentCallId request.id).session.redactor.args request.args =
      request.args := by
    rw [Redactor.args, hin.off.disabled]
    rfl
  have hrecorded : recordedTool parentCallId request (machine.inTool parentCallId request.id) =
      (.ok none, machine.inTool parentCallId request.id) := by
    rw [recordedTool, getSession]
    simp only [run_bind, run_get, run_pure, hin.toolCalls, ite_self]
  obtain ⟨body, outside, hbody⟩ : ∃ (body : ToolBody F D W) (outside : W),
      (perform world (.dispatch request.name request.args) : Py F D W (ToolBody F D W))
        (machine.inTool parentCallId request.id) = (.ok body,
          (machine.inTool parentCallId request.id).called (.dispatch request.name request.args)
            outside) :=
    perform_normal world hworld (.dispatch request.name request.args) _
  obtain ⟨inner, after, hafter, hinner, hof⟩ := toolBody_taped world hworld
    (hin.called (.dispatch request.name request.args) outside) body
  have hcall : callTool world true parentCallId request (machine.inTool parentCallId request.id) =
      (do
        let outcome ← body.run world
        let result ← putBlob (Utf8.encode outcome.content)
        let machine ← get
        append (.toolCall {
          parentCallId, toolCallId := request.id, batchIndex := request.batchIndex
          name := request.name, args := request.args, argsHash := hashArgs D request.args, result
          status := outcome.status, error := outcome.error
          eventMeta := world.eventMeta machine.outside })
        return outcome : Py F D W ToolOutcome)
        ((machine.inTool parentCallId request.id).called (.dispatch request.name request.args)
          outside) := by
    have hsession : getSession (machine.inTool parentCallId request.id) =
        (.ok (machine.inTool parentCallId request.id).session,
          machine.inTool parentCallId request.id) := rfl
    rw [callTool, run_bind_ok hsession, hargs]
    refine (run_bind_ok hrecorded).trans ?_
    simp only [Option.filter_none, hin.records, Bool.not_true, Bool.false_eq_true, if_false]
    exact run_bind_ok hbody
  rw [toolsCall_eq, hcall] at hrun
  rcases hresult : body.run world ((machine.inTool parentCallId request.id).called
    (.dispatch request.name request.args) outside) with ⟨raised | returned, mid⟩
  · rw [run_bind_error hresult] at hrun
    cases hrun
  obtain rfl : mid = after := by rw [← hafter, hresult]
  obtain ⟨put, hput, hputTaped, hhas, -⟩ :=
    putBlob_taped hinner.taping (Utf8.encode returned.content)
  have hput' := hputTaped.taping
  rw [List.append_nil] at hput'
  obtain ⟨last, happend, hlast, -⟩ := append_taped hput' (.toolCall {
    parentCallId, toolCallId := request.id, batchIndex := request.batchIndex
    name := request.name, args := request.args, argsHash := hashArgs D request.args
    result := ⟨Sha256.hash (Utf8.encode returned.content), (Utf8.encode returned.content).length⟩
    status := returned.status, error := returned.error
    eventMeta := world.eventMeta put.outside }) rfl
  rw [run_bind_ok hresult, run_bind_ok hput, run_bind_ok (run_get _), run_bind_ok happend] at hrun
  obtain ⟨houtcome, rfl⟩ := Prod.mk.inj hrun
  obtain rfl : returned = outcome := Except.ok.inj houtcome
  have htaping := hlast.taping
  rw [List.append_assoc] at htaping
  have hbelow := hinner.below.trans (hputTaped.below.trans hlast.below)
  exact ⟨inner, _, ⟨htaping.elsewhere rfl rfl, hbelow, rfl⟩, hof,
    ⟨rfl, rfl, rfl, rfl, rfl, rfl, rfl⟩, hhas.mono hlast.below⟩

/-! ## Models -/

/-- What a model call recorded. -/
structure CallTaped (callId : Text) (request : ModelRequest F) (response : ModelResponse F)
    (stream : Option (StreamRecord F)) (call : ModelCallEvent F) : Prop where
  callId : call.callId = callId
  modelId : call.modelId = request.identity.modelId
  tools : call.tools = request.tools
  messages : call.messages = request.messages
  messagesHash : call.messagesHash = hashMessages F D request.messages
  response : call.response = response
  stream : call.stream = stream

omit [Pydantic F D] [DecidableEq D] in
/-- Whether a backend was there is no part of what a call records. -/
theorem CallTaped.backend {callId : Text} {request : ModelRequest F} {response : ModelResponse F}
    {stream : Option (StreamRecord F)} {call : ModelCallEvent F} (live live' : Bool)
    (h : CallTaped (D := D) callId { request with hasBackend := live } response stream call) :
    CallTaped (D := D) callId { request with hasBackend := live' } response stream call :=
  ⟨h.callId, h.modelId, h.tools, h.messages, h.messagesHash, h.response, h.stream⟩

omit [DecidableEq D] in
/-- A call is appended if its stream reassembles; otherwise it raises. -/
theorem appendModelCall_taped (h : Taping runs runId events machine) (callId : Text)
    (request : ModelRequest F) (response : ModelResponse F) (stream : Option (StreamRecord F))
    (hreassembles : StreamReassembles stream response) :
    ∃ (call : ModelCallEvent F) (machine' : Machine F D W),
      appendModelCall world callId request request.messages response stream machine =
        (.ok ⟨⟩, machine') ∧
      Taped runs runId events machine [.modelCall call] machine' ∧
      CallTaped (D := D) callId request response stream call := by
  obtain ⟨last, happend, htaped, hsession⟩ := append_taped h (.modelCall {
    callId, provider := request.identity.provider, modelId := request.identity.modelId
    modelVersion := request.identity.modelVersion, params := request.params
    tools := request.tools, messages := request.messages
    messagesHash := hashMessages F D request.messages, response, stream
    reassembles := hreassembles, parentCallId := machine.session.currentCallId
    eventMeta := world.eventMeta machine.outside }) rfl
  refine ⟨_, { last with session := { last.session with currentCallId := some callId } }, ?_,
    ⟨{ htaped.taping with }, htaped.below, htaped.scope⟩, ⟨rfl, rfl, rfl, rfl, rfl, rfl, rfl⟩⟩
  rw [appendModelCall, run_bind_ok (run_get _)]
  dsimp only
  rw [h.off.messages]
  dsimp only
  rw [dif_pos hreassembles, run_bind_ok happend, modifySession, run_modify]
  have hfresh : last.session.canReplay = false := htaped.taping.fresh
  simp only [hfresh, Bool.false_eq_true, if_false]

omit [DecidableEq D] in
/-- Looking at the messages of a turn records nothing. -/
theorem turnMessages_taped (h : Taping runs runId events machine) (messages : List Message) :
    ∃ machine', turnMessages messages machine = (.ok messages, machine') ∧
      Taped runs runId events machine [] machine' := by
  refine ⟨{ machine with session := { machine.session with turn := machine.session.turn + 1 } }, ?_,
    ?_⟩
  · rw [turnMessages, getSession]
    simp only [run_bind, run_get, run_pure, modifySession, run_modify, h.intervention]
  · refine ⟨?_, fun _ _ hstored => hstored, rfl⟩
    rw [List.append_nil]
    exact { h with }

omit [DecidableEq D] in
/-- A session that records has no recorded call to answer with. -/
theorem matched_taped (h : Taping runs runId events machine) (request : ModelRequest F)
    (messages : List Message) : matched request messages machine = (.ok none, machine) := by
  rw [matched, getSession]
  simp only [run_bind, run_get, run_pure, h.matcher]

omit [DecidableEq D] in
/-- A model call that returned was recorded with its response. -/
theorem create_taped (hworld : world.Normal) (h : Taping runs runId events machine)
    {request : ModelRequest F} (hbackend : request.hasBackend = true) :
    ∃ (completion : Completion F) (call : ModelCallEvent F) (machine' : Machine F D W),
      Model.create world request machine = (.ok completion, machine') ∧
      Taped runs runId events machine [.modelCall call] machine' ∧
      CallTaped (D := D) completion.callId request completion.response none call := by
  obtain ⟨turned, hturn, hturned⟩ := turnMessages_taped h request.messages
  have hturned' := hturned.taping
  rw [List.append_nil] at hturned'
  obtain ⟨response, outside, hresponse⟩ : ∃ (response : ModelResponse F) (outside : W),
      (perform world (.create request.identity.modelId request.messages request.params) :
        Py F D W (ModelResponse F)) turned = (.ok response, turned.called
          (.create request.identity.modelId request.messages request.params) outside) :=
    perform_normal world hworld
      (.create request.identity.modelId request.messages request.params) turned
  have huuid : Taping runs runId events (uuid4 world (turned.called
      (.create request.identity.modelId request.messages request.params) outside)).2 :=
    hturned'.elsewhere rfl rfl
  obtain ⟨call, machine', happend, htaped, hcall⟩ := appendModelCall_taped world huuid
    (world.uuid4 outside).1 request response none
    fun record hrecord => absurd hrecord (Option.not_mem_none record)
  refine ⟨⟨(world.uuid4 outside).1, response⟩, call, machine', ?_, ?_, hcall⟩
  · rw [Model.create, run_bind_ok hturn, run_bind_ok (matched_taped hturned' _ _)]
    have hsession : getSession turned = (.ok turned.session, turned) := rfl
    dsimp only
    rw [run_bind_ok hsession, hbackend]
    simp only [Bool.not_true, Bool.false_eq_true, if_false]
    refine (run_bind_ok hresponse).trans ((run_bind_ok (run_modifyGet _ _)).trans ?_)
    exact (run_bind_ok happend).trans rfl
  · have htaping := htaped.taping
    exact ⟨htaping, hturned.below.trans htaped.below, htaped.scope.trans hturned.scope⟩

omit [Sha256 D] [Pydantic F D] [DecidableEq D] in
/-- A handle that took all chunks of its source. -/
def StreamHandle.drained (handle : StreamHandle F D) : StreamHandle F D :=
  { handle with
    source := { handle.source with chunks := [] }, chunks := handle.chunks ++ handle.source.chunks }

omit [DecidableEq D] in
/-- Draining a stream is taking its chunks and then its end. -/
theorem drain_eq (handle : StreamHandle F D) (hresponse : handle.response = none)
    (machine : Machine F D W) :
    handle.drain world machine = handle.drained.next world machine := by
  have hloop : ∀ (chunks : List (StreamChunk F)) (handle : StreamHandle F D),
      handle.source.chunks = chunks → handle.response = none →
        handle.drainFrom world chunks machine = handle.drained.next world machine := by
    intro chunks
    induction chunks with
    | nil =>
      intro handle hchunks _
      have hdrained : handle.drained = handle := by
        obtain ⟨callId, ⟨source, finish⟩, returned, onFinish, chunks, response⟩ := handle
        obtain rfl : source = [] := hchunks
        simp [StreamHandle.drained]
      rw [StreamHandle.drainFrom, hdrained]
    | cons chunk rest ih =>
      intro handle hchunks hnone
      have hnext : handle.next world machine = (.ok (.chunk chunk, { handle with
          source := { handle.source with chunks := rest }
          chunks := handle.chunks ++ [chunk] }), machine) := by
        rw [StreamHandle.next, hnone, hchunks]
        rfl
      rw [StreamHandle.drainFrom, run_bind_ok hnext]
      refine (ih { handle with
        source := { handle.source with chunks := rest }, chunks := handle.chunks ++ [chunk] }
        rfl hnone).trans ?_
      simp only [StreamHandle.drained, hchunks, List.append_assoc, List.singleton_append]
  rw [StreamHandle.drain, hresponse]
  exact hloop _ handle rfl hresponse

omit [DecidableEq D] in
/-- The end of a stream is its finalization, whether its source returned or raised. -/
theorem next_end (handle : StreamHandle F D) (hresponse : handle.response = none)
    (hchunks : handle.source.chunks = []) (machine : Machine F D W) :
    handle.next world machine = match handle.source.finish with
      | .ok returned =>
        let ended := { handle with returned := handle.returned.or returned }
        match ended.finalize world machine with
        | (.ok response, after) => (.ok (.stop, { ended with response := some response }), after)
        | (.error raised, after) => (.ok (.raised raised, ended), after)
      | .error raised =>
        let ended := { handle with source := { handle.source with finish := .ok none } }
        match ended.finalize world machine with
        | (.ok response, after) =>
          (.ok (.raised raised, { ended with response := some response }), after)
        | (.error raised, after) => (.ok (.raised raised, ended), after) := by
  rw [StreamHandle.next, hresponse, hchunks]
  simp only [Option.isSome_none, Bool.false_eq_true, if_false]
  cases handle.source.finish with
  | ok returned =>
    dsimp only
    rw [run_bind_ok (attempt_eq _ _)]
    split
    · next response after hfinalize =>
      rw [hfinalize]
      rfl
    · next raised after hfinalize =>
      rw [hfinalize]
      rfl
  | error raised =>
    dsimp only
    rw [run_bind_ok (attempt_eq _ _)]
    split
    · next response after hfinalize =>
      rw [hfinalize]
      rfl
    · next raised after hfinalize =>
      rw [hfinalize]
      rfl

omit [DecidableEq D] in
/-- The end of a stream of a backend: it was recorded if draining it does not raise. -/
theorem drain_taped (h : Taping runs runId events machine) (callId : Text)
    (source : StreamScript F D) (request : ModelRequest F) {step : StreamStep F D}
    {handle : StreamHandle F D}
    (hrun : ({ callId, source, onFinish := .live request request.messages } :
      StreamHandle F D).drain world machine = (.ok (step, handle), machine')) :
    (∃ raised, step = .raised raised) ∨
    ∃ (call : ModelCallEvent F) (response : ModelResponse F), step = .stop ∧
      handle.response = some response ∧
      handle.callId = callId ∧ handle.chunks = source.chunks ∧
      Taped runs runId events machine [.modelCall call] machine' ∧
      CallTaped (D := D) callId request response (some ⟨source.chunks⟩) call := by
  rw [drain_eq world _ rfl, next_end world _ rfl rfl] at hrun
  simp only [StreamHandle.drained, List.nil_append, Option.none_or] at hrun
  cases hfinish : source.finish with
  | error raised =>
    simp only [hfinish] at hrun
    refine .inl ?_
    split at hrun
    · cases hrun
      exact ⟨raised, rfl⟩
    · cases hrun
      exact ⟨_, rfl⟩
  | ok returned =>
    simp only [hfinish] at hrun
    split at hrun
    · next response after hfinalize =>
      cases hrun
      refine .inr ?_
      rw [StreamHandle.finalize] at hfinalize
      dsimp only at hfinalize
      obtain ⟨_, mid, happend, hret⟩ := bind_eq_ok.mp hfinalize
      cases hret
      by_cases hreassembles : StreamReassembles (some ⟨source.chunks⟩)
        (returned.getD (partialResponse source.chunks))
      · obtain ⟨call, machine', happend', htaped, hcall⟩ := appendModelCall_taped world h callId
          request _ _ hreassembles
        rw [happend] at happend'
        cases happend'
        exact ⟨call, _, rfl, rfl, rfl, rfl, htaped, hcall⟩
      · rw [appendModelCall, run_bind_ok (run_get _)] at happend
        dsimp only at happend
        rw [h.off.messages] at happend
        dsimp only at happend
        rw [dif_neg hreassembles] at happend
        cases happend
    · cases hrun
      exact .inl ⟨_, rfl⟩

omit [DecidableEq D] in
/-- A stream that was consumed was recorded with its chunks and its response. -/
theorem consume_taped (hworld : world.Normal) (h : Taping runs runId events machine)
    {request : ModelRequest F} (hbackend : request.hasBackend = true) {callId : Text}
    {chunks : List (StreamChunk F)} {response : ModelResponse F}
    (hrun : consume world request machine = (.ok (callId, chunks, response), machine')) :
    ∃ call : ModelCallEvent F, Taped runs runId events machine [.modelCall call] machine' ∧
      CallTaped (D := D) callId request response (some ⟨chunks⟩) call := by
  obtain ⟨turned, hturn, hturned⟩ := turnMessages_taped h request.messages
  have hturned' := hturned.taping
  rw [List.append_nil] at hturned'
  have huuid : Taping runs runId events (uuid4 world turned).2 := hturned'.elsewhere rfl rfl
  obtain ⟨source, outside, hsource⟩ : ∃ (source : StreamScript F D) (outside : W),
      (perform world (.stream request.identity.modelId request.messages request.params) :
        Py F D W (StreamScript F D)) (uuid4 world turned).2 = (.ok source,
          (uuid4 world turned).2.called
            (.stream request.identity.modelId request.messages request.params) outside) :=
    perform_normal world hworld
      (.stream request.identity.modelId request.messages request.params) (uuid4 world turned).2
  have hopened := huuid.called
    (.stream request.identity.modelId request.messages request.params) outside
  have hstream : Model.stream world request machine = (.ok {
      callId := (world.uuid4 turned.outside).1, source
      onFinish := .live request request.messages },
      (uuid4 world turned).2.called
        (.stream request.identity.modelId request.messages request.params) outside) := by
    rw [Model.stream, run_bind_ok hturn, run_bind_ok (matched_taped hturned' _ _)]
    dsimp only
    refine (run_bind_ok (run_modifyGet _ _)).trans ?_
    have hsession : getSession (uuid4 world turned).2 =
        (.ok (uuid4 world turned).2.session, (uuid4 world turned).2) := rfl
    refine (run_bind_ok hsession).trans ?_
    rw [hbackend]
    simp only [Bool.not_true, Bool.false_eq_true, if_false]
    exact (run_bind_ok hsource).trans rfl
  rw [consume, run_bind_ok hstream] at hrun
  obtain ⟨⟨step, handle⟩, drained, hdrain, hrest⟩ := bind_eq_ok.mp hrun
  rcases drain_taped world hopened _ source request hdrain with
    ⟨raised, rfl⟩ | ⟨call, response', rfl, hresponse, hcallId, hchunks, htaped, hcall⟩
  · cases hrest
  · simp only [hresponse, hcallId, hchunks] at hrest
    cases hrest
    have htaping := htaped.taping
    exact ⟨call, ⟨htaping, hturned.below.trans htaped.below, htaped.scope.trans hturned.scope⟩,
      hcall⟩

/-! ## The outcome -/

omit [Sha256 D] [Pydantic F D] [DecidableEq D] in
/-- The outcome that was appended last is the last one. -/
theorem lastOutcome_append (events : List (Event F D)) (event : OutcomeEvent F D) :
    lastOutcome (events ++ [.outcome event]) = some event := by
  simp [lastOutcome, Event.outcome?]

omit [Sha256 D] [Pydantic F D] [DecidableEq D] in
/-- The last outcome is an event of the log. -/
theorem mem_of_lastOutcome {last : OutcomeEvent F D} (h : lastOutcome events = some last) :
    .outcome last ∈ events := by
  obtain ⟨event, hevent, hlast⟩ := List.mem_filterMap.mp (List.mem_of_getLast? h)
  cases event with
  | outcome event =>
    obtain rfl := Option.some.inj hlast
    exact hevent
  | _ => cases hlast

omit [Sha256 D] [Pydantic F D] [DecidableEq D] in
/-- A log with an outcome has a last one. -/
theorem exists_lastOutcome {event : OutcomeEvent F D} (h : .outcome event ∈ events) :
    ∃ last, lastOutcome events = some last := by
  have hmem : event ∈ events.filterMap Event.outcome? := List.mem_filterMap.mpr ⟨_, h, rfl⟩
  exact ⟨_, List.getLast?_eq_some_getLast (List.ne_nil_of_mem hmem)⟩

omit [DecidableEq D] in
/-- An outcome with the status of those before it is appended and kept. -/
theorem Taping.closed (h : Taping runs runId events machine) (event : OutcomeEvent F D)
    (hsame : ∀ last, lastOutcome events = some last → event.status = last.status) :
    Taping runs runId (events ++ [.outcome event]) { machine with
      store := machine.store.append machine.session.runId (.outcome event)
      session := { machine.session with
        index := { machine.session.index with outcome := some event } } } := by
  have hall : ∀ a : OutcomeEvent F D, .outcome a ∈ events ++ [.outcome event] →
      a.status = event.status := by
    intro a ha
    rcases List.mem_append.mp ha with ha | ha
    · obtain ⟨last, hlast⟩ := exists_lastOutcome ha
      rw [hsame last hlast, h.agree a last ha (mem_of_lastOutcome hlast)]
    · rw [Event.outcome.inj (List.mem_singleton.mp ha)]
  refine { h with outcome := ?_, agree := ?_, logs := h.logs.append _ }
  · rw [lastOutcome_append]
  · intro a b ha hb
    rw [hall a ha, hall b hb]

/-- An outcome that does not raise has the status of those before it. -/
theorem outcome_taped (h : Taping runs runId events machine) {args : OutcomeArgs}
    (hrun : Session.outcome world args machine = (.ok ⟨⟩, machine')) :
    ∃ event : OutcomeEvent F D, Taped runs runId events machine [.outcome event] machine' ∧
      event.status = args.status := by
  have hsession : getSession machine = (.ok machine.session, machine) := rfl
  have hrecord : recordOutcome world args machine = (.ok ⟨⟩, machine') ∧
      ∀ recorded, lastOutcome events = some recorded → args.status = recorded.status := by
    rw [Session.outcome, run_bind_ok hsession, h.outcome] at hrun
    cases hlast : lastOutcome events with
    | none =>
      rw [hlast] at hrun
      simp only [h.records, Bool.not_true, Bool.false_eq_true, if_false] at hrun
      exact ⟨hrun, fun _ hsome => nomatch hsome⟩
    | some recorded =>
      rw [hlast] at hrun
      dsimp only at hrun
      by_cases hstatus : args.status = recorded.status
      · simp only [hstatus, ne_eq, not_true_eq_false, if_false, h.records, if_true] at hrun
        refine ⟨hrun, fun other hother => ?_⟩
        rw [← Option.some.inj hother, hstatus]
      · rw [if_pos hstatus] at hrun
        cases hrun
  obtain ⟨hrun, hsame⟩ := hrecord
  rw [recordOutcome] at hrun
  obtain ⟨patch, put, hput, hrun⟩ := bind_eq_ok.mp hrun
  have hputTaped : Taped runs runId events machine [] put := by
    cases hpatch : args.patch with
    | none =>
      rw [hpatch] at hput
      cases hput
      exact h.outside rfl rfl rfl
    | some text =>
      rw [hpatch] at hput
      obtain ⟨mid, hmid, htaped, -, -⟩ := putBlob_taped h (Utf8.encode text)
      rw [Option.mapM_some, map_eq_pure_bind, run_bind_ok hmid] at hput
      cases hput
      exact htaped
  have hput' := hputTaped.taping
  rw [List.append_nil] at hput'
  rw [run_bind_ok (run_get _)] at hrun
  dsimp only at hrun
  rw [run_bind_ok (append_off hput'.off hput'.records _)] at hrun
  cases hrun
  exact ⟨_, ⟨hput'.closed _ hsame, hputTaped.below, hputTaped.scope⟩, rfl⟩

/-! ## Transcripts -/

/-- A log holds what is needed to give an agent these answers once more. -/
inductive Transcript (world : World F D W) (store : Store F D) :
    Agent F → List (Answer F) → List (Event F D) → Prop
  | done : Transcript world store .done [] []
  | create {request : ModelRequest F} {next : Completion F → Agent F} {completion : Completion F}
      {call : ModelCallEvent F} {answers : List (Answer F)} {events : List (Event F D)}
      (hcall : CallTaped (D := D) completion.callId request completion.response none call)
      (rest : Transcript world store (next completion) answers events) :
      Transcript world store (.create request next)
        (.completion completion.callId completion.response :: answers) (.modelCall call :: events)
  | stream {request : ModelRequest F}
      {next : Text → List (StreamChunk F) → ModelResponse F → Agent F} {callId : Text}
      {chunks : List (StreamChunk F)} {response : ModelResponse F} {call : ModelCallEvent F}
      {answers : List (Answer F)} {events : List (Event F D)}
      (hcall : CallTaped (D := D) callId request response (some ⟨chunks⟩) call)
      (rest : Transcript world store (next callId chunks response) answers events) :
      Transcript world store (.stream request next)
        (.streamed callId chunks response :: answers) (.modelCall call :: events)
  | tool {parentCallId : Text} {request : ToolCallRequest F} {next : ToolOutcome → Agent F}
      {outcome : ToolOutcome} {inner : List (Event F D)} {event : ToolCallEvent F D}
      {answers : List (Answer F)} {events : List (Event F D)}
      (hinner : OfTool (some request.id) inner)
      (htool : ToolTaped parentCallId request outcome event)
      (hhas : store.Has (Utf8.encode outcome.content))
      (rest : Transcript world store (next outcome) answers events) :
      Transcript world store (.tool parentCallId request next) (.tool outcome :: answers)
        (inner ++ .toolCall event :: events)
  | env {source : EnvironmentSource} {key : Option Text} {next : CanonicalValue F → Agent F}
      {event : EnvironmentEvent F} {answers : List (Answer F)} {events : List (Event F D)}
      (hsource : event.source = source) (hkey : event.key = key) (htool : event.toolCallId = none)
      (rest : Transcript world store (next event.value) answers events) :
      Transcript world store (.env source key next) (.env event.value :: answers)
        (.environment event :: events)
  | content {root : Option Text} {path key : Text} {next : Option (List UInt8) → Agent F}
      {event : FsReadEvent F D} {data : Option (List UInt8)} {answers : List (Answer F)}
      {events : List (Event F D)} (hkey : world.key root path = some key)
      (hread : ReadTaped .content key none event) (htells : event.Tells store data)
      (rest : Transcript world store (next data) answers events) :
      Transcript world store (.content root path next) (.content data :: answers)
        (.fsRead event :: events)
  | pathExists {root : Option Text} {path key : Text} {next : Bool → Agent F}
      {event : FsReadEvent F D} {answers : List (Answer F)} {events : List (Event F D)}
      (hkey : world.key root path = some key) (hread : ReadTaped .exists key none event)
      (rest : Transcript world store (next event.found) answers events) :
      Transcript world store (.pathExists root path next) (.pathExists event.found :: answers)
        (.fsRead event :: events)
  | listing {root : Option Text} {path key : Text} {next : Option (List Text) → Agent F}
      {event : FsReadEvent F D} {names : Option (List Text)} {answers : List (Answer F)}
      {events : List (Event F D)} (hkey : world.key root path = some key)
      (hread : ReadTaped .listing key none event)
      (htells : event.Tells store (names.map (listingBytes F)))
      (rest : Transcript world store (next names) answers events) :
      Transcript world store (.listing root path next) (.listing names :: answers)
        (.fsRead event :: events)
  | write {root : Option Text} {path key : Text} {data : List UInt8} {next : Agent F}
      {event : FsWriteEvent F D} {answers : List (Answer F)} {events : List (Event F D)}
      (hkey : world.key root path = some key) (hpath : event.path = key)
      (hdigest : event.content.digest = Sha256.hash data) (htool : event.toolCallId = none)
      (rest : Transcript world store next answers events) :
      Transcript world store (.write root path data next) (.written :: answers)
        (.fsWrite event :: events)
  | outcome {args : OutcomeArgs} {next : Agent F} {event : OutcomeEvent F D}
      {answers : List (Answer F)} {events : List (Event F D)} (hstatus : event.status = args.status)
      (rest : Transcript world store next answers events) :
      Transcript world store (.outcome args next) (.closed :: answers) (.outcome event :: events)

omit [Python F] [Pydantic F D] [DecidableEq D] in
/-- What an event tells of a store it tells of every larger store. -/
theorem FsReadEvent.Tells.mono {event : FsReadEvent F D} {store other : Store F D}
    {data : Option (List UInt8)} (h : event.Tells store data) (hbelow : store.Below other) :
    event.Tells other data := by
  cases data with
  | none => exact h
  | some data => exact ⟨h.1, h.2.1.mono hbelow, h.2.2⟩

omit [Pydantic F D] [DecidableEq D] in
/-- A transcript only needs the blobs of the store. -/
theorem Transcript.mono {store other : Store F D} (hbelow : store.Below other) {agent : Agent F}
    {answers : List (Answer F)} {events : List (Event F D)}
    (h : Transcript world store agent answers events) :
    Transcript world other agent answers events := by
  induction h with
  | done => exact .done
  | create hcall _ ih => exact .create hcall ih
  | stream hcall _ ih => exact .stream hcall ih
  | tool hinner htool hhas _ ih => exact .tool hinner htool (hhas.mono hbelow) ih
  | env hsource hkey htool _ ih => exact .env hsource hkey htool ih
  | content hkey hread htells _ ih => exact .content hkey hread (htells.mono hbelow) ih
  | pathExists hkey hread _ ih => exact .pathExists hkey hread ih
  | listing hkey hread htells _ ih => exact .listing hkey hread (htells.mono hbelow) ih
  | write hkey hpath hdigest htool _ ih => exact .write hkey hpath hdigest htool ih
  | outcome hstatus _ ih => exact .outcome hstatus ih

/-- A run that returned left a transcript of what the agent was answered. -/
theorem run_taped (hworld : world.Normal) (agent : Agent F) {answers : List (Answer F)}
    (h : Taping runs runId events machine) (hscope : machine.scope = (none, none))
    (hrun : agent.run world true machine = (.ok answers, machine')) :
    ∃ more, Taped runs runId events machine more machine' ∧
      Transcript world machine'.store agent answers more := by
  induction agent generalizing events machine answers with
  | done =>
    cases hrun
    exact ⟨[], h.outside rfl rfl rfl, .done⟩
  | create request next ih =>
    rw [Agent.run] at hrun
    have hbackend : ({ request with hasBackend := true } : ModelRequest F).hasBackend = true := rfl
    obtain ⟨completion, call, mid, hcreate, htaped, hcall⟩ := create_taped world hworld h hbackend
    rw [run_bind_ok hcreate] at hrun
    obtain ⟨later, after, hnext, hret⟩ := bind_eq_ok.mp hrun
    cases hret
    obtain ⟨more, hmore, htranscript⟩ :=
      ih completion htaped.taping (htaped.scope.trans hscope) hnext
    exact ⟨_, htaped.trans hmore, .create (hcall.backend _ _) htranscript⟩
  | stream request next ih =>
    rw [Agent.run] at hrun
    obtain ⟨⟨callId, chunks, response⟩, mid, hconsume, hrun⟩ := bind_eq_ok.mp hrun
    obtain ⟨later, after, hnext, hret⟩ := bind_eq_ok.mp hrun
    cases hret
    obtain ⟨call, htaped, hcall⟩ := consume_taped world hworld h rfl hconsume
    obtain ⟨more, hmore, htranscript⟩ :=
      ih callId chunks response htaped.taping (htaped.scope.trans hscope) hnext
    exact ⟨_, htaped.trans hmore, .stream (hcall.backend _ _) htranscript⟩
  | tool parentCallId request next ih =>
    rw [Agent.run] at hrun
    obtain ⟨outcome, mid, htool, hrun⟩ := bind_eq_ok.mp hrun
    obtain ⟨later, after, hnext, hret⟩ := bind_eq_ok.mp hrun
    cases hret
    obtain ⟨inner, event, htaped, hinner, hevent, hhas⟩ := toolsCall_taped world hworld h htool
    obtain ⟨more, hmore, htranscript⟩ :=
      ih outcome htaped.taping (htaped.scope.trans hscope) hnext
    refine ⟨_, htaped.trans hmore, ?_⟩
    rw [List.append_assoc]
    exact .tool hinner hevent (hhas.mono hmore.below) htranscript
  | env source key next ih =>
    rw [Agent.run] at hrun
    obtain ⟨event, mid, hvalue, htaped, hsource, hkey, htool⟩ :=
      envValue_taped world hworld h source key
    rw [run_bind_ok hvalue] at hrun
    obtain ⟨later, after, hnext, hret⟩ := bind_eq_ok.mp hrun
    cases hret
    obtain ⟨more, hmore, htranscript⟩ :=
      ih event.value htaped.taping (htaped.scope.trans hscope) hnext
    rw [hscope] at htool
    exact ⟨_, htaped.trans hmore, .env hsource hkey htool htranscript⟩
  | content root path next ih =>
    rw [Agent.run] at hrun
    rcases readBytes_taped world hworld h root path with
      ⟨-, hread⟩ | ⟨key, event, data, mid, hkey, hread, htaped, hevent, htells⟩
    · rw [run_bind_error hread] at hrun
      cases hrun
    rw [run_bind_ok hread] at hrun
    obtain ⟨later, after, hnext, hret⟩ := bind_eq_ok.mp hrun
    cases hret
    obtain ⟨more, hmore, htranscript⟩ := ih data htaped.taping (htaped.scope.trans hscope) hnext
    rw [hscope] at hevent
    exact ⟨_, htaped.trans hmore, .content hkey hevent (htells.mono hmore.below) htranscript⟩
  | pathExists root path next ih =>
    rw [Agent.run] at hrun
    rcases fileExists_taped world hworld h root path with
      ⟨-, hread⟩ | ⟨key, event, mid, hkey, hread, htaped, hevent⟩
    · rw [run_bind_error hread] at hrun
      cases hrun
    rw [run_bind_ok hread] at hrun
    obtain ⟨later, after, hnext, hret⟩ := bind_eq_ok.mp hrun
    cases hret
    obtain ⟨more, hmore, htranscript⟩ :=
      ih event.found htaped.taping (htaped.scope.trans hscope) hnext
    rw [hscope] at hevent
    exact ⟨_, htaped.trans hmore, .pathExists hkey hevent htranscript⟩
  | listing root path next ih =>
    rw [Agent.run] at hrun
    rcases listDir_taped world hworld h root path with
      ⟨-, hread⟩ | ⟨key, event, names, mid, hkey, hread, htaped, hevent, htells⟩
    · rw [run_bind_error hread] at hrun
      cases hrun
    rw [run_bind_ok hread] at hrun
    obtain ⟨later, after, hnext, hret⟩ := bind_eq_ok.mp hrun
    cases hret
    obtain ⟨more, hmore, htranscript⟩ := ih names htaped.taping (htaped.scope.trans hscope) hnext
    rw [hscope] at hevent
    exact ⟨_, htaped.trans hmore, .listing hkey hevent (htells.mono hmore.below) htranscript⟩
  | write root path data next ih =>
    rw [Agent.run] at hrun
    rcases writeBytes_taped world hworld h root path data with
      ⟨-, hwrite⟩ | ⟨key, event, mid, hkey, hwrite, htaped, hpath, hdigest, htool⟩
    · rw [run_bind_error hwrite] at hrun
      cases hrun
    rw [run_bind_ok hwrite] at hrun
    obtain ⟨later, after, hnext, hret⟩ := bind_eq_ok.mp hrun
    cases hret
    obtain ⟨more, hmore, htranscript⟩ := ih htaped.taping (htaped.scope.trans hscope) hnext
    rw [hscope] at htool
    exact ⟨_, htaped.trans hmore, .write hkey hpath hdigest htool htranscript⟩
  | outcome args next ih =>
    rw [Agent.run] at hrun
    obtain ⟨_, mid, houtcome, hrun⟩ := bind_eq_ok.mp hrun
    obtain ⟨later, after, hnext, hret⟩ := bind_eq_ok.mp hrun
    cases hret
    obtain ⟨event, htaped, hstatus⟩ := outcome_taped world h houtcome
    obtain ⟨more, hmore, htranscript⟩ := ih htaped.taping (htaped.scope.trans hscope) hnext
    exact ⟨_, htaped.trans hmore, .outcome hstatus htranscript⟩

end Recording

end Tracewake.Recording
