import Tracewake.Recording.Schema
import Tracewake.JsonText.Dict
import Mathlib.Data.List.Sort

/-!
# Dumps of events

`model_dump` of the event types, the canonical bytes of an event, the hashes taken over
messages and arguments, and the order and digest of a run. Validation is the work of
`pydantic`: of it only what its documentation promises is assumed, that a dump is
validated to what was dumped.
-/

namespace Tracewake.Recording

open JsonText
open Results (lessCodePoints keyOrder)

variable {F D : Type}

/-! ## `model_dump` -/

/-- An object with named fields. -/
def record (fields : List (String × Value F)) : Value F :=
  .obj (fields.map fun field => (field.1.toList, field.2))

/-- An optional value is dumped as `None`. -/
def optional {α : Type} (dump : α → Value F) : Option α → Value F
  | none => .null
  | some value => dump value

def integer (n : ℤ) : Value F := .num (.int n)

def float (x : F) : Value F := .num (.float x)

def list {α : Type} (dump : α → Value F) (values : List α) : Value F :=
  .arr (values.map dump)

def Role.text : Role → Text
  | .system => "system".toList
  | .user => "user".toList
  | .assistant => "assistant".toList
  | .tool => "tool".toList

def Status.text : Status → Text
  | .ok => "ok".toList
  | .error => "error".toList

def EnvironmentSource.text : EnvironmentSource → Text
  | .clock => "clock".toList
  | .monotonic => "monotonic".toList
  | .perfCounter => "perf_counter".toList
  | .random => "random".toList
  | .uuid => "uuid".toList
  | .env => "env".toList

def ReadKind.text : ReadKind → Text
  | .content => "content".toList
  | .listing => "listing".toList
  | .exists => "exists".toList

def BlobRef.dump [Sha256 D] (ref : BlobRef D) : Value F :=
  record [("digest", .str (Sha256.hex ref.digest)), ("size", integer ref.size)]

def EventMeta.dump (value : EventMeta F) : Value F :=
  record [("recorded_at", float value.recordedAt), ("duration_ms", optional float value.durationMs),
    ("chunk_offsets_ms", optional (list float) value.chunkOffsetsMs)]

/-- The dump of a message without its provenance. -/
def Message.sent (message : Message) : List (String × Value F) :=
  [("role", .str message.role.text), ("content", .str message.content),
    ("tool_call_id", optional .str message.toolCallId)]

def Message.dump (message : Message) : Value F :=
  record (message.sent ++ [("provenance", optional .str message.provenance)])

def DecodeParams.dump (params : DecodeParams F) : Value F :=
  record [("temperature", optional float params.temperature), ("top_p", optional float params.topP),
    ("max_tokens", optional integer params.maxTokens), ("stop", optional (list .str) params.stop),
    ("seed", optional integer params.seed)]

def ModelIdentity.dump (identity : ModelIdentity) : Value F :=
  record [("provider", .str identity.provider), ("model_id", .str identity.modelId),
    ("model_version", optional .str identity.modelVersion)]

def ToolCallRequest.dump [Python F] (request : ToolCallRequest F) : Value F :=
  record [("id", .str request.id), ("name", .str request.name), ("args", request.args.value),
    ("batch_index", integer request.batchIndex)]

def Usage.dump (usage : Usage) : Value F :=
  record [("input_tokens", integer usage.inputTokens), ("output_tokens", integer usage.outputTokens),
    ("cached_input_tokens", integer usage.cachedInputTokens)]

def ModelResponse.dump [Python F] (response : ModelResponse F) : Value F :=
  record [("text", .str response.text), ("tool_calls", list ToolCallRequest.dump response.toolCalls),
    ("finish_reason", .str response.finishReason), ("usage", response.usage.dump),
    ("logprobs", optional (list CanonicalValue.value) response.logprobs)]

def StreamChunk.dump [Python F] (chunk : StreamChunk F) : Value F :=
  record [("index", integer chunk.index), ("text_delta", .str chunk.textDelta),
    ("tool_call_delta", optional CanonicalMapping.value chunk.toolCallDelta)]

def StreamRecord.dump [Python F] (stream : StreamRecord F) : Value F :=
  record [("chunks", list StreamChunk.dump stream.chunks)]

variable [Python F]

/-- `type`. -/
def Event.type : Event F D → Text
  | .modelCall _ => "model_call".toList
  | .toolCall _ => "tool_call".toList
  | .environment _ => "environment".toList
  | .fsRead _ => "fs_read".toList
  | .fsWrite _ => "fs_write".toList
  | .outcome _ => "outcome".toList
  | .intervention _ => "intervention".toList

/-- `parent_call_id`. -/
def Event.parentCallId : Event F D → Option Text
  | .modelCall event => event.parentCallId
  | .toolCall event => some event.parentCallId
  | .environment event => event.parentCallId
  | .fsRead event => event.parentCallId
  | .fsWrite event => event.parentCallId
  | .outcome event => event.parentCallId
  | .intervention event => event.parentCallId

/-- `tool_call_id`. -/
def Event.toolCallId : Event F D → Option Text
  | .modelCall event => event.toolCallId
  | .toolCall event => some event.toolCallId
  | .environment event => event.toolCallId
  | .fsRead event => event.toolCallId
  | .fsWrite event => event.toolCallId
  | .outcome event => event.toolCallId
  | .intervention event => event.toolCallId

/-- `meta`. -/
def Event.eventMeta : Event F D → EventMeta F
  | .modelCall event => event.eventMeta
  | .toolCall event => event.eventMeta
  | .environment event => event.eventMeta
  | .fsRead event => event.eventMeta
  | .fsWrite event => event.eventMeta
  | .outcome event => event.eventMeta
  | .intervention event => event.eventMeta

variable [Sha256 D]

/-- The fields of an event's own type. -/
def Event.ownFields : Event F D → List (String × Value F)
  | .modelCall event =>
    [("call_id", .str event.callId), ("provider", .str event.provider),
      ("model_id", .str event.modelId), ("model_version", optional .str event.modelVersion),
      ("params", event.params.dump), ("tools", optional (list .str) event.tools),
      ("messages", list Message.dump event.messages), ("messages_hash", .str event.messagesHash),
      ("response", event.response.dump), ("stream", optional StreamRecord.dump event.stream)]
  | .toolCall event =>
    [("batch_index", integer event.batchIndex), ("name", .str event.name),
      ("args", event.args.value), ("args_hash", .str event.argsHash),
      ("result", event.result.dump), ("status", .str event.status.text),
      ("error", optional .str event.error)]
  | .environment event =>
    [("source", .str event.source.text), ("key", optional .str event.key),
      ("value", event.value.value)]
  | .fsRead event =>
    [("path", .str event.path), ("kind", .str event.kind.text), ("exists", .bool event.found),
      ("content", optional BlobRef.dump event.content)]
  | .fsWrite event => [("path", .str event.path), ("content", event.content.dump)]
  | .outcome event =>
    [("status", .str event.status.text), ("error", optional .str event.error),
      ("usage", event.usage.dump), ("coverage", optional .bool event.coverage),
      ("resolve", optional .bool event.resolve), ("patch", optional BlobRef.dump event.patch),
      ("test_summary", optional .str event.testSummary)]
  | .intervention event =>
    [("source_run_id", .str event.sourceRunId), ("drop_tags", list .str event.dropTags),
      ("from_turn", integer event.fromTurn)]

/-- The fields of an event without its `meta`. -/
def Event.fields (event : Event F D) : List (String × Value F) :=
  [("type", .str event.type), ("parent_call_id", optional .str event.parentCallId),
    ("tool_call_id", optional .str event.toolCallId)] ++ event.ownFields

/-- `model_dump(exclude={"meta"})`. -/
def Event.dump (event : Event F D) : Value F :=
  record event.fields

/-- `model_dump()`. -/
def Event.dumpAll (event : Event F D) : Value F :=
  record (event.fields ++ [("meta", event.eventMeta.dump)])

/-- The text of `canonical_bytes`. -/
def Event.canonicalText (event : Event F D) : Text :=
  canonicalJson event.dump

/-- `canonical_bytes`. -/
def Event.canonicalBytes (event : Event F D) : List UInt8 :=
  Utf8.encode event.canonicalText

/-! ## Hashes -/

/-- `hash_messages`. -/
def hashMessages (F D : Type) [Python F] [Sha256 D] (messages : List Message) : Text :=
  sha256Hex D (Utf8.encode (canonicalJson
    (list (F := F) (fun message => record message.sent) messages)))

/-- `hash_args`. -/
def hashArgs (D : Type) [Sha256 D] (args : CanonicalMapping F) : Text :=
  sha256Hex D (Utf8.encode (canonicalJson args.value))

/-! ## The order and the digest of a run -/

/-- The last entry of a dictionary that is built by a comprehension. -/
def lastOf {α β : Type} (entries : List α) (entry : α → Option (Text × β)) (key : Text) : Option β :=
  (entries.filterMap entry).reverse.findSome? fun e => if e.1 = key then some e.2 else none

/-- The sort key of `canonical_order`. -/
def orderKey (events : List (StoredEvent F D)) (e : StoredEvent F D) : List ℤ :=
  let seqOfCall := lastOf events fun e => match e.event with
    | .modelCall event => some (event.callId, e.seq)
    | _ => none
  let batchOfTool := lastOf events fun e => match e.event with
    | .toolCall event => some (event.toolCallId, event.batchIndex)
    | _ => none
  let truthy (id : Option Text) : Option Text := id.filter fun id => id ≠ []
  match e.event with
  | .modelCall _ => [e.seq, 0, 0, 0, 0]
  | event =>
    let group := ((truthy event.parentCallId).bind seqOfCall).getD e.seq
    match event with
    | .toolCall tool => [group, 1, tool.batchIndex, 1, e.seq]
    | event => [group, 1, ((truthy event.toolCallId).bind batchOfTool).getD (-1), 0, e.seq]

/-- `canonical_order`. -/
def canonicalOrder (events : List (StoredEvent F D)) : List (StoredEvent F D) :=
  events.mergeSort fun a b => decide (orderKey events a ≤ orderKey events b)

/-- `run_digest`. -/
def runDigest (events : List (StoredEvent F D)) : Text :=
  sha256Hex D ((canonicalOrder events).flatMap fun e => e.event.canonicalBytes ++ [10])

/-! ## Validation -/

/-- What `pydantic` does with dumps. `validate` is `EVENT_ADAPTER.validate_python`, and
`metaJson` is `meta.model_dump_json`. -/
class Pydantic (F D : Type) [Python F] [Sha256 D] where
  validate : Value F → Option (Event F D)
  validateMessage : Value F → Option Message
  metaJson : EventMeta F → Text
  validate_dumpAll : ∀ event : Event F D,
    validate (event.dumpAll.canon lessCodePoints) = some event
  validateMessage_dump : ∀ message : Message,
    validateMessage ((Message.dump message : Value F).canon lessCodePoints) = some message
  loads_metaJson : ∀ value : EventMeta F,
    loads (metaJson value) = some (value.dump.canon lessCodePoints)

/-- The fields of a dictionary with one more key. -/
def assign (key : String) (value : Value F) (fields : List (Text × Value F)) :
    List (Text × Value F) :=
  Json.setField lessCodePoints key.toList value fields

/-- The dictionary of a record. -/
def dictionary (fields : List (String × Value F)) : List (Text × Value F) :=
  Json.canonFields lessCodePoints (fields.map fun field => (field.1.toList, field.2))

omit [Python F] in
/-- A record with its keys sorted is a dictionary. -/
theorem record_canon (fields : List (String × Value F)) :
    (record fields).canon lessCodePoints = .obj (dictionary fields) := rfl

omit [Python F] in
/-- Assigning a key is dumping it last. -/
theorem assign_dictionary (key : String) (value : Value F) (fields : List (String × Value F)) :
    assign key (value.canon lessCodePoints) (dictionary fields) =
      dictionary (fields ++ [(key, value)]) := by
  rw [assign, dictionary, Json.setField_canonFields keyOrder, dictionary, List.map_append]
  rfl

end Tracewake.Recording
