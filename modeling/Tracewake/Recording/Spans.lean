import Tracewake.Recording.Recorder

/-!
# The trace tree of a run

A run is exported as spans: one for the run, one for each model call, and one for each tool
call under its model call. The ids of spans are digests of the ids in the log, so the spans
are a tree when the log names the model calls that it refers to.
-/

namespace Tracewake.Recording

open JsonText

variable {F D : Type} [Python F]

/-! ## `build_spans` -/

/-- The arithmetic of times: whether a time is zero, the start of what took a while, the
nanoseconds of a time, and the latest of some times. -/
class Clock (F : Type) where
  isZero : F → Bool
  startOf : F → Option F → F
  nanos : F → Text
  latest : F → List F → F

/-- `SPAN_KIND_CLIENT`. -/
def spanKindClient : ℤ := 3

/-- `SPAN_KIND_INTERNAL`. -/
def spanKindInternal : ℤ := 1

/-- `STATUS_OK`. -/
def statusOk : ℤ := 1

/-- `STATUS_ERROR`. -/
def statusError : ℤ := 2

/-- `_value`. -/
def spanValue : Value F → Value F
  | .bool b => record [("boolValue", .bool b)]
  | .num (.int n) => record [("intValue", .str (printInt n))]
  | .num (.float x) => record [("doubleValue", float x)]
  | .arr items => record [("arrayValue", record [("values", .arr (items.attach.map fun item =>
      spanValue item.1))])]
  | value => record [("stringValue", .str (Python.str value))]
termination_by value => sizeOf value
decreasing_by
  have := List.sizeOf_lt_of_mem item.2
  simp only [Json.arr.sizeOf_spec]
  omega

/-- `_attributes`. -/
def spanAttributes (pairs : List (String × Value F)) : List (Value F) :=
  pairs.filterMap fun pair =>
    match pair.2 with
    | .null => none
    | value => some (record [("key", .str pair.1.toList), ("value", spanValue value)])

/-- A span. -/
structure Span (F : Type) where
  traceId : Text
  spanId : Text
  parentSpanId : Option Text
  name : Text
  kind : ℤ
  startTimeUnixNano : Text
  endTimeUnixNano : Text
  attributes : List (Value F)
  statusCode : ℤ
  statusMessage : Option Text

section Build

variable (H : Type) [Sha256 H]

/-- `_trace_id`. -/
def traceId (runId : Text) : Text :=
  (sha256Hex H (Utf8.encode ("trace:".toList ++ runId))).take 32

/-- `_span_id`. -/
def spanId (runId key : Text) : Text :=
  (sha256Hex H (Utf8.encode ("span:".toList ++ runId ++ ":".toList ++ key))).take 16

variable [Clock F]

/-- `_span`. -/
def makeSpan (runId key : Text) (parent : Option Text) (name : Text) (kind : ℤ) (start finish : F)
    (attributes : List (String × Value F)) (error : Option Text) : Span F :=
  let error := error.filter fun message => message ≠ []
  { traceId := traceId H runId
    spanId := spanId H runId key
    parentSpanId := parent.map (spanId H runId)
    name := name
    kind := kind
    startTimeUnixNano := Clock.nanos start
    endTimeUnixNano := Clock.nanos finish
    attributes := spanAttributes attributes
    statusCode := if error.isSome then statusError else statusOk
    statusMessage := error }

/-- The key of the span of a tool call. -/
def toolKey (parentCallId toolCallId : Text) : Text :=
  parentCallId ++ "/".toList ++ toolCallId

/-- The span of an event. -/
def eventSpan (runId : Text) (stored : StoredEvent F D) : Option (Span F) :=
  let finish := stored.event.eventMeta.recordedAt
  let start := Clock.startOf finish stored.event.eventMeta.durationMs
  match stored.event with
  | .modelCall event =>
    some (makeSpan H runId event.callId (some "run".toList) ("chat ".toList ++ event.modelId)
      spanKindClient start finish
      [("gen_ai.operation.name", .str "chat".toList), ("gen_ai.system", .str event.provider),
        ("gen_ai.request.model", .str event.modelId),
        ("gen_ai.request.temperature", optional float event.params.temperature),
        ("gen_ai.request.top_p", optional float event.params.topP),
        ("gen_ai.request.max_tokens", optional integer event.params.maxTokens),
        ("gen_ai.request.seed", optional integer event.params.seed),
        ("gen_ai.response.finish_reasons", .arr [.str event.response.finishReason]),
        ("gen_ai.usage.input_tokens", integer event.response.usage.inputTokens),
        ("gen_ai.usage.output_tokens", integer event.response.usage.outputTokens),
        ("tracewake.messages_hash", .str event.messagesHash), ("tracewake.run_id", .str runId)]
      none)
  | .toolCall event =>
    some (makeSpan H runId (toolKey event.parentCallId event.toolCallId)
      (some event.parentCallId) ("execute_tool ".toList ++ event.name) spanKindInternal start finish
      [("gen_ai.operation.name", .str "execute_tool".toList),
        ("gen_ai.tool.name", .str event.name), ("gen_ai.tool.call.id", .str event.toolCallId),
        ("tracewake.tool.batch_index", integer event.batchIndex),
        ("tracewake.tool.result_bytes", integer event.result.size)]
      event.error)
  | _ => none

/-- The span of the run. -/
def rootSpan (header : RunHeader F) (events : List (StoredEvent F D)) : Span F :=
  let ends := events.map fun stored => stored.event.eventMeta.recordedAt
  let finish := (header.finishedAt.filter fun time => !Clock.isZero time).getD <|
    match ends with
    | [] => header.startedAt
    | first :: rest => Clock.latest first rest
  makeSpan H header.runId "run".toList none ("agent run ".toList ++ header.name)
    spanKindInternal header.startedAt finish
    [("tracewake.run_id", .str header.runId), ("tracewake.cassette", .str header.name),
      ("tracewake.task_id", optional .str header.taskId),
      ("gen_ai.request.model", optional (fun identity => .str identity.modelId)
        header.models.head?),
      ("gen_ai.system", optional (fun identity => .str identity.provider) header.models.head?)]
    (if header.status = .error then some "run ended in error".toList else none)

/-- `build_spans`: the spans of the one scope. -/
def buildSpans (header : RunHeader F) (events : List (StoredEvent F D)) : List (Span F) :=
  rootSpan H header events :: events.filterMap (eventSpan H header.runId)

end Build

/-! ## Keys -/

/-- The key of the span of an event. -/
def Position.spanKey : Position → Option Text
  | .modelCall callId _ => some callId
  | .toolCall parentCallId toolCallId _ => some (toolKey parentCallId toolCallId)
  | .other _ _ => none

/-- The keys of the spans of a log. -/
def spanKeys (events : List (StoredEvent F D)) : List Text :=
  "run".toList :: events.filterMap fun stored => stored.event.position.spanKey

section Keys

variable (H : Type) [Sha256 H] [Clock F]

/-- The identifier of a span is that of its key. -/
theorem eventSpan_spanId (runId : Text) (stored : StoredEvent F D) :
    (eventSpan H runId stored).map (fun span => span.spanId) =
      stored.event.position.spanKey.map (spanId H runId) := by
  unfold eventSpan
  cases stored.event <;> rfl

/-- The span of an event is under that of the run or of a model call. -/
theorem eventSpan_parent {runId : Text} {stored : StoredEvent F D} {span : Span F} {id : Text}
    (h : eventSpan H runId stored = some span) (hid : span.parentSpanId = some id) :
    id = spanId H runId "run".toList ∨ ∃ tool, stored.event = .toolCall tool ∧
      id = spanId H runId tool.parentCallId := by
  unfold eventSpan at h
  cases hevent : stored.event with
  | modelCall event =>
    rw [hevent] at h
    obtain rfl := Option.some.inj h
    exact .inl (Option.some.inj hid).symm
  | toolCall tool =>
    rw [hevent] at h
    obtain rfl := Option.some.inj h
    exact .inr ⟨tool, rfl, (Option.some.inj hid).symm⟩
  | _ => simp [hevent] at h

/-- All spans of a run have one trace. -/
theorem eventSpan_traceId {runId : Text} {stored : StoredEvent F D} {span : Span F}
    (h : eventSpan H runId stored = some span) : span.traceId = traceId H runId := by
  unfold eventSpan at h
  split at h
  · obtain rfl := Option.some.inj h
    rfl
  · obtain rfl := Option.some.inj h
    rfl
  · cases h

/-- The ids of the spans are the digests of their keys. -/
theorem buildSpans_spanId (header : RunHeader F) (events : List (StoredEvent F D)) :
    (buildSpans H header events).map (fun span => span.spanId) =
      (spanKeys events).map (spanId H header.runId) := by
  rw [buildSpans, spanKeys, List.map_cons, List.map_cons, List.map_filterMap, List.map_filterMap]
  refine congrArg _ (List.filterMap_congr fun stored _ => ?_)
  exact eventSpan_spanId H header.runId stored

end Keys

/-! ## Trees -/

/-- Every parent in the log is a model call of the log. -/
def Closed (events : List (StoredEvent F D)) : Prop :=
  ∀ e ∈ events, ∀ parent, e.event.parentCallId = some parent →
    ∃ m ∈ events, ∃ model, m.event = .modelCall model ∧ model.callId = parent

/-- Spans of one trace that have distinct ids and refer to each other. -/
structure Tree (spans : List (Span F)) : Prop where
  trace : ∀ a ∈ spans, ∀ b ∈ spans, a.traceId = b.traceId
  distinct : (spans.map fun span => span.spanId).Nodup
  parents : ∀ span ∈ spans, ∀ id, span.parentSpanId = some id → ∃ parent ∈ spans, parent.spanId = id

/-- No two keys of the log have the same digest. -/
def CollisionFreeSpans (H : Type) [Sha256 H] (runId : Text) (events : List (StoredEvent F D)) :
    Prop :=
  ∀ a ∈ spanKeys events, ∀ b ∈ spanKeys events, spanId H runId a = spanId H runId b → a = b

section Trees

variable (H : Type) [Sha256 H] [Clock F]

/-- A closed log with distinct keys is exported as a tree. -/
theorem buildSpans_tree {header : RunHeader F} {events : List (StoredEvent F D)}
    (hclosed : Closed events) (hkeys : (spanKeys events).Nodup)
    (hcollision : CollisionFreeSpans H header.runId events) :
    Tree (buildSpans H header events) := by
  have htrace : ∀ span ∈ buildSpans H header events, span.traceId = traceId H header.runId := by
    intro span hspan
    rcases List.mem_cons.mp hspan with rfl | hspan
    · rfl
    · obtain ⟨stored, _, hevent⟩ := List.mem_filterMap.mp hspan
      exact eventSpan_traceId H hevent
  have hid : ∀ key ∈ spanKeys events, ∃ span ∈ buildSpans H header events,
      span.spanId = spanId H header.runId key := by
    intro key hkey
    have hmem := List.mem_map_of_mem (f := spanId H header.runId) hkey
    rw [← buildSpans_spanId] at hmem
    exact List.mem_map.mp hmem
  constructor
  · exact fun a ha b hb => (htrace a ha).trans (htrace b hb).symm
  · rw [buildSpans_spanId]
    exact hkeys.map_on hcollision
  · intro span hspan id hparent
    rcases List.mem_cons.mp hspan with rfl | hspan
    · cases hparent
    · obtain ⟨stored, hstored, hevent⟩ := List.mem_filterMap.mp hspan
      rcases eventSpan_parent H hevent hparent with rfl | ⟨tool, htool, rfl⟩
      · exact hid _ (List.mem_cons_self ..)
      · obtain ⟨m, hm, model, hmodel, hcall⟩ :=
          hclosed stored hstored tool.parentCallId (by rw [htool]; rfl)
        refine hid _ (List.mem_cons_of_mem _ (List.mem_filterMap.mpr ⟨m, hm, ?_⟩))
        rw [hmodel, ← hcall]
        rfl

end Trees

end Tracewake.Recording
