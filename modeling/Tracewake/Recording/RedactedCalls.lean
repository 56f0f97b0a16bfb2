import Tracewake.Recording.RedactedEvents
import Tracewake.Recording.PureReplay

/-!
# Redacted model calls

The redacted call is built field by field, so that its dump is the walked dump where no
header glob matches a field that holds no text. Where one does, nothing is dumped to the
walked dump, so validation has nothing to give back.
-/

namespace Tracewake.Recording

open JsonText Texts
open Results (lessCodePoints keyOrder)

variable {F D : Type}

/-! ## Dumps that are no texts -/

/-- The value is no string. -/
def NoText (value : Value F) : Prop :=
  ∀ s, value.canon lessCodePoints ≠ .str s

/-- A record is no text. -/
@[simp] theorem noText_record (fields : List (String × Value F)) : NoText (record fields) :=
  fun _ => nofun

/-- A list is no text. -/
@[simp] theorem noText_list {α : Type} (dump : α → Value F) (values : List α) :
    NoText (list dump values) := fun _ => nofun

/-- An integer is no text. -/
@[simp] theorem noText_integer (n : ℤ) : NoText (integer n : Value F) := fun _ => nofun

/-- A float is no text. -/
@[simp] theorem noText_float (x : F) : NoText (float x) := fun _ => nofun

/-- A mapping is no text. -/
@[simp] theorem noText_mapping (mapping : CanonicalMapping F) : NoText mapping.value :=
  fun _ => nofun

/-- An optional value is no text if no dumped value is one. -/
theorem noText_optional {α : Type} {dump : α → Value F} (h : ∀ a, NoText (dump a))
    (value : Option α) : NoText (optional dump value) := by
  cases value with
  | none => exact fun _ => nofun
  | some a => exact h a

/-- Under a filtered key there is a text. -/
theorem NoText.unfiltered {value walked : Value F} (hvalue : NoText value) {filtered : Bool}
    (h : value.canon lessCodePoints = if filtered then .str redacted else walked) :
    filtered = false ∧ value.canon lessCodePoints = walked := by
  cases filtered with
  | false => exact ⟨rfl, h⟩
  | true => exact absurd h (hvalue redacted)

variable [Python F]

namespace Redactor

variable (redactor : Redactor F D)

/-! ## Walking dumps -/

/-- Only the keys decide where a field goes. -/
theorem walkFields_insertField (key : Text) (value : Value F) (fields : List (Text × Value F)) :
    redactor.walkFields (Json.insertField lessCodePoints key value fields) =
      Json.insertField lessCodePoints key
        (if redactor.isFilteredKey key then .str redacted else redactor.walk value)
        (redactor.walkFields fields) := by
  induction fields with
  | nil => rfl
  | cons f rest ih =>
    obtain ⟨k, w⟩ := f
    simp only [Json.insertField, walkFields]
    split
    · rfl
    · split
      · rfl
      · rw [walkFields, ih]

/-- Walking and ordering the keys commute. -/
theorem walk_canon_comm (value : Value F) :
    redactor.walk (value.canon lessCodePoints) = (redactor.walk value).canon lessCodePoints := by
  induction value using Json.induction with
  | null | bool | num | str => rfl
  | arr items ih =>
    simp only [Json.canon, Json.canonItems_eq, walk, walkItems_eq, List.map_map, Json.arr.injEq]
    exact List.map_congr_left ih
  | obj fields ih =>
    simp only [Json.canon, walk, Json.obj.injEq]
    induction fields with
    | nil => rfl
    | cons f rest ihrest =>
      obtain ⟨k, w⟩ := f
      have hw := ih (k, w) List.mem_cons_self
      have hrest := ihrest fun f hf => ih f (List.mem_cons_of_mem _ hf)
      simp only [Json.canonFields, walkFields, walkFields_insertField, hrest]
      split
      · rfl
      · rw [hw]

/-- What `_walk` makes of the value under a named key. -/
def walkAt (key : String) (value : Value F) : Value F :=
  if redactor.isFilteredKey key.toList then .str redacted else redactor.walk value

/-- A record is walked field by field. -/
theorem walk_record (fields : List (String × Value F)) :
    redactor.walk (record fields) =
      record (fields.map fun field => (field.1, redactor.walkAt field.1 field.2)) := by
  simp only [record, walk, walkFields_eq, List.map_map]
  rfl

/-- None of the names is matched by a header glob. -/
def Spares (keys : List String) : Prop :=
  ∀ key ∈ keys, redactor.isFilteredKey key.toList = false

instance (keys : List String) : Decidable (redactor.Spares keys) :=
  inferInstanceAs (Decidable (∀ key ∈ keys, redactor.isFilteredKey key.toList = false))

/-- Under a key that is not filtered a value is walked as it is anywhere. -/
theorem Spares.walkAt {redactor : Redactor F D} {keys : List String} (h : redactor.Spares keys)
    {key : String} (hkey : key ∈ keys) (value : Value F) :
    redactor.walkAt key value = redactor.walk value := by
  rw [Redactor.walkAt, h key hkey, if_neg Bool.false_ne_true]

/-- A text under a named key. -/
def textAt (key : String) (value : Text) : Text :=
  if redactor.isFilteredKey key.toList then redacted else redactor.text value

/-- A text that may be missing under a named key. -/
def textAt? (key : String) (value : Option Text) : Option Text :=
  if redactor.isFilteredKey key.toList then some redacted else value.map redactor.text

/-- A text under a key is redacted as that key's text. -/
theorem walkAt_text (key : String) (value : Text) :
    redactor.walkAt key (.str value) = .str (redactor.textAt key value) := by
  rw [walkAt, textAt]
  split <;> rfl

/-- An optional text under a key is redacted as that key's text, if there is one. -/
theorem walkAt_optional (key : String) (value : Option Text) :
    redactor.walkAt key (optional .str value) = optional .str (redactor.textAt? key value) := by
  rw [walkAt, textAt?]
  split
  · rfl
  · cases value <;> rfl

/-- A list is walked element by element. -/
theorem walk_list {α β : Type} {dump : α → Value F} {dump' : β → Value F} {f : α → β}
    {values : List α} (h : ∀ a ∈ values, redactor.walk (dump a) = dump' (f a)) :
    redactor.walk (list dump values) = list dump' (values.map f) := by
  simp only [list, walk, walkItems_eq, List.map_map, Json.arr.injEq]
  exact List.map_congr_left h

/-- An optional value is walked if there is one. -/
theorem walk_optional {α β : Type} {dump : α → Value F} {dump' : β → Value F} {f : α → β}
    {value : Option α} (h : ∀ a ∈ value, redactor.walk (dump a) = dump' (f a)) :
    redactor.walk (optional dump value) = optional dump' (value.map f) := by
  cases value with
  | none => rfl
  | some a => exact h a rfl

/-! ## The redacted call -/

/-- A redacted message. -/
def message (message : Message) : Message where
  role := message.role
  content := redactor.textAt "content" message.content
  toolCallId := redactor.textAt? "tool_call_id" message.toolCallId
  provenance := redactor.textAt? "provenance" message.provenance

/-- Redacted parameters. -/
def params (params : DecodeParams F) : DecodeParams F :=
  { params with stop := params.stop.map (List.map redactor.text) }

/-- A redacted request for a tool call. -/
def request (request : ToolCallRequest F) : ToolCallRequest F where
  id := redactor.textAt "id" request.id
  name := redactor.textAt "name" request.name
  args := redactor.args request.args
  batchIndex := request.batchIndex

/-- A redacted value. -/
def value (value : CanonicalValue F) : CanonicalValue F where
  value := redactor.walk value.value
  sorted := redactor.walk_canon value.sorted

/-- A redacted response. -/
def response (response : ModelResponse F) : ModelResponse F where
  text := redactor.textAt "text" response.text
  toolCalls := response.toolCalls.map redactor.request
  finishReason := redactor.textAt "finish_reason" response.finishReason
  usage := response.usage
  logprobs := response.logprobs.map (List.map redactor.value)

/-- A redacted chunk. -/
def chunk (chunk : StreamChunk F) : StreamChunk F where
  index := chunk.index
  textDelta := redactor.textAt "text_delta" chunk.textDelta
  toolCallDelta := chunk.toolCallDelta.map redactor.args

/-- A redacted stream. -/
def stream (stream : StreamRecord F) : StreamRecord F :=
  ⟨stream.chunks.map redactor.chunk⟩

/-- The redacted call, if its stream reassembles. -/
def modelCall (call : ModelCallEvent F)
    (reassembles : StreamReassembles (call.stream.map redactor.stream)
      (redactor.response call.response)) : ModelCallEvent F where
  parentCallId := redactor.textAt? "parent_call_id" call.parentCallId
  toolCallId := redactor.textAt? "tool_call_id" call.toolCallId
  eventMeta := call.eventMeta
  callId := redactor.textAt "call_id" call.callId
  provider := redactor.textAt "provider" call.provider
  modelId := redactor.textAt "model_id" call.modelId
  modelVersion := redactor.textAt? "model_version" call.modelVersion
  params := redactor.params call.params
  tools := call.tools.map (List.map redactor.text)
  messages := call.messages.map redactor.message
  messagesHash := redactor.textAt "messages_hash" call.messagesHash
  response := redactor.response call.response
  stream := call.stream.map redactor.stream
  reassembles := reassembles

/-! ## Walked dumps of records -/

/-- The fields of a model call that hold no text. -/
def callKeys : List String := ["params", "tools", "messages", "response", "stream"]

def paramsKeys : List String := ["temperature", "top_p", "max_tokens", "stop", "seed"]

def requestKeys : List String := ["args", "batch_index"]

def usageKeys : List String := ["input_tokens", "output_tokens", "cached_input_tokens"]

def responseKeys : List String := ["tool_calls", "usage", "logprobs"]

def chunkKeys : List String := ["index", "tool_call_delta"]

variable {redactor}

/-- Each text of a list is redacted. -/
theorem walk_texts (texts : List Text) :
    redactor.walk (list .str texts) = list .str (texts.map redactor.text) := by
  have hstr : ∀ text ∈ texts, redactor.walk (.str text) = .str (redactor.text text) :=
    fun _ _ => rfl
  exact redactor.walk_list hstr

/-- A float that may be missing is not touched. -/
theorem walk_optional_float (x : Option F) :
    redactor.walk (optional float x) = optional float x := by
  cases x <;> rfl

/-- An integer that may be missing is not touched. -/
theorem walk_optional_integer (n : Option ℤ) :
    redactor.walk (optional integer n) = optional integer n := by
  cases n <;> rfl

/-- An integer is not touched. -/
theorem walk_integer (n : ℤ) : redactor.walk (integer n) = integer n := rfl

/-- A usage record has no text, so it stays as it is unless one of its keys is filtered. -/
theorem walk_usage (h : redactor.Spares usageKeys) (usage : Usage) :
    redactor.walk usage.dump = usage.dump := by
  simp (disch := decide) [Usage.dump, walk_record, h.walkAt, walk_integer]

/-- The walk over the parameters is the redaction of the parameters. -/
theorem walk_params (h : redactor.Spares paramsKeys) (params : DecodeParams F) :
    redactor.walk params.dump = (redactor.params params).dump := by
  have hstop : redactor.walk (optional (list .str) params.stop) =
      optional (list .str) (params.stop.map (List.map redactor.text)) :=
    redactor.walk_optional fun texts _ => walk_texts texts
  simp (disch := decide) [DecodeParams.dump, walk_record, h.walkAt, walk_optional_float,
    walk_optional_integer, hstop, Redactor.params]

/-- The role has to be left alone. -/
theorem walk_message {message : Message}
    (hrole : redactor.textAt "role" message.role.text = message.role.text) :
    redactor.walk message.dump = (redactor.message message).dump := by
  simp [Message.dump, Message.sent, walk_record, walkAt_text, walkAt_optional, Redactor.message,
    hrole]

/-- The walk over a tool request is its redaction if no key of it is filtered. -/
theorem walk_request (henabled : redactor.enabled = true) {request : ToolCallRequest F}
    (h : redactor.Spares requestKeys) :
    redactor.walk request.dump = (redactor.request request).dump := by
  simp (disch := decide) [ToolCallRequest.dump, walk_record, walkAt_text, h.walkAt, walk_integer,
    Redactor.request, Redactor.args, henabled, CanonicalMapping.value, walk]

/-- The walk over a response is its redaction if no key that it uses is filtered. -/
theorem walk_response (henabled : redactor.enabled = true) {response : ModelResponse F}
    (h : redactor.Spares responseKeys) (husage : redactor.Spares usageKeys)
    (hrequests : ∀ request ∈ response.toolCalls, redactor.Spares requestKeys) :
    redactor.walk response.dump = (redactor.response response).dump := by
  have hvalues : redactor.walk (optional (list CanonicalValue.value) response.logprobs) =
      optional (list CanonicalValue.value) (response.logprobs.map (List.map redactor.value)) :=
    redactor.walk_optional fun _ _ => redactor.walk_list fun _ _ => rfl
  have hcalls : redactor.walk (list ToolCallRequest.dump response.toolCalls) =
      list ToolCallRequest.dump (response.toolCalls.map redactor.request) :=
    redactor.walk_list fun request hrequest => walk_request henabled (hrequests request hrequest)
  simp (disch := decide) [ModelResponse.dump, walk_record, walkAt_text, h.walkAt,
    walk_usage husage, hvalues, hcalls, Redactor.response]

/-- The walk over a chunk is its redaction if no key of it is filtered. -/
theorem walk_chunk (henabled : redactor.enabled = true) {chunk : StreamChunk F}
    (h : redactor.Spares chunkKeys) : redactor.walk chunk.dump = (redactor.chunk chunk).dump := by
  have hdelta : redactor.walk (optional CanonicalMapping.value chunk.toolCallDelta) =
      optional CanonicalMapping.value (chunk.toolCallDelta.map redactor.args) := by
    refine redactor.walk_optional fun delta _ => ?_
    simp [Redactor.args, henabled, CanonicalMapping.value, walk]
  simp (disch := decide) [StreamChunk.dump, walk_record, walkAt_text, h.walkAt, walk_integer,
    hdelta, Redactor.chunk]

/-- The walk over a stream is its redaction if no key that it uses is filtered. -/
theorem walk_stream (henabled : redactor.enabled = true) {stream : StreamRecord F}
    (h : redactor.Spares ["chunks"]) (hchunks : ∀ chunk ∈ stream.chunks, redactor.Spares chunkKeys) :
    redactor.walk stream.dump = (redactor.stream stream).dump := by
  have hwalked : redactor.walk (list StreamChunk.dump stream.chunks) =
      list StreamChunk.dump (stream.chunks.map redactor.chunk) :=
    redactor.walk_list fun chunk hchunk => walk_chunk henabled (hchunks chunk hchunk)
  simp (disch := decide) [StreamRecord.dump, walk_record, h.walkAt, hwalked, Redactor.stream]

/-! ## Reading a walked dump back -/

/-- The fields of a record that is dumped to a walked dump are the walked fields. -/
theorem fields_of_walked {fields fields' : List (String × Value F)}
    (h : (record fields').canon lessCodePoints =
      redactor.walk ((record fields).canon lessCodePoints)) (key : String) :
    (lastField key fields').map (Json.canon lessCodePoints) =
      (lastField key fields).map fun value =>
        if redactor.isFilteredKey key.toList then .str redacted
        else redactor.walk (value.canon lessCodePoints) := by
  rw [redactor.walk_canon_comm, walk_record] at h
  have hfield := congrArg (fun value => value.field key.toList) h
  simp only [Json.field_canon keyOrder, field_record] at hfield
  rw [lastField, hfield, lastField, ← List.map_reverse, List.find?_map, Option.map_map,
    Option.map_map, Option.map_map]
  have hpred : ((fun field : String × Value F => decide (field.1 = key)) ∘
      fun field : String × Value F => (field.1, redactor.walkAt field.1 field.2)) =
      fun field => decide (field.1 = key) := rfl
  rw [hpred]
  cases hfound : fields.reverse.find? fun field => decide (field.1 = key) with
  | none => rfl
  | some field =>
    obtain rfl : field.1 = key := by simpa using List.find?_some hfound
    simp only [Option.map_some, Function.comp_apply, walkAt, redactor.walk_canon_comm]
    split <;> rfl

/-- No header glob matches a field of a record that holds no text. -/
theorem unfiltered_of_walked {fields fields' : List (String × Value F)}
    (h : (record fields').canon lessCodePoints =
      redactor.walk ((record fields).canon lessCodePoints)) (key : String) {value value' : Value F}
    (hvalue : lastField key fields = some value) (hvalue' : lastField key fields' = some value')
    (hno : NoText value') : redactor.isFilteredKey key.toList = false ∧
      value'.canon lessCodePoints = redactor.walk (value.canon lessCodePoints) := by
  have hfields := fields_of_walked h key
  rw [hvalue, hvalue', Option.map_some, Option.map_some, Option.some.injEq] at hfields
  exact hno.unfiltered hfields

/-- A list is walked item by item. -/
theorem mem_of_walked {α β : Type} {dump : α → Value F} {dump' : β → Value F} {values : List α}
    {values' : List β} (h : (list dump' values').canon lessCodePoints =
      redactor.walk ((list dump values).canon lessCodePoints)) {a : α} (ha : a ∈ values) :
    ∃ b ∈ values', (dump' b).canon lessCodePoints = redactor.walk ((dump a).canon lessCodePoints) := by
  simp only [list, Json.canon, Json.canonItems_eq, walk, walkItems_eq, List.map_map,
    Json.arr.injEq] at h
  have hmem : redactor.walk ((dump a).canon lessCodePoints) ∈
      values'.map (Json.canon lessCodePoints ∘ dump') := by
    rw [h]
    exact List.mem_map_of_mem ha
  exact List.mem_map.mp hmem

/-- A value that is there is walked, where dumps are not `None`. -/
theorem some_of_walked {α β : Type} {dump : α → Value F} {dump' : β → Value F} {a : α}
    {value' : Option β} (hnull : redactor.walk ((dump a).canon lessCodePoints) ≠ .null)
    (h : (optional dump' value').canon lessCodePoints =
      redactor.walk ((optional dump (some a)).canon lessCodePoints)) :
    ∃ b, value' = some b ∧
      (dump' b).canon lessCodePoints = redactor.walk ((dump a).canon lessCodePoints) := by
  cases value' with
  | none => exact absurd h.symm hnull
  | some b => exact ⟨b, rfl, h⟩

/-- Every number of the parameters is still one. -/
theorem params_spared {params params' : DecodeParams F} (h : params'.dump.canon lessCodePoints =
    redactor.walk (params.dump.canon lessCodePoints)) : redactor.Spares paramsKeys := by
  have hfloat (x : Option F) : NoText (optional float x) := noText_optional noText_float x
  have hinteger (n : Option ℤ) : NoText (optional integer n : Value F) :=
    noText_optional noText_integer n
  have hstop := noText_optional (noText_list (F := F) .str) params'.stop
  simp only [Spares, paramsKeys, List.forall_mem_cons, List.not_mem_nil, false_imp_iff,
    implies_true, and_true]
  exact ⟨(unfiltered_of_walked h _ rfl rfl (hfloat _)).1, (unfiltered_of_walked h _ rfl rfl (hfloat _)).1,
    (unfiltered_of_walked h _ rfl rfl (hinteger _)).1, (unfiltered_of_walked h _ rfl rfl hstop).1,
    (unfiltered_of_walked h _ rfl rfl (hinteger _)).1⟩

/-- A usage record that is still one after the walk had no key filtered: a filtered number
would have become a text. -/
theorem usage_spared {usage usage' : Usage} (h : (usage'.dump : Value F).canon lessCodePoints =
    redactor.walk (usage.dump.canon lessCodePoints)) : redactor.Spares usageKeys := by
  simp only [Spares, usageKeys, List.forall_mem_cons, List.not_mem_nil, false_imp_iff,
    implies_true, and_true]
  exact ⟨(unfiltered_of_walked h _ rfl rfl (noText_integer _)).1,
    (unfiltered_of_walked h _ rfl rfl (noText_integer _)).1,
    (unfiltered_of_walked h _ rfl rfl (noText_integer _)).1⟩

/-- A tool request that is still one after the walk had no key filtered. -/
theorem request_spared {request request' : ToolCallRequest F}
    (h : request'.dump.canon lessCodePoints = redactor.walk (request.dump.canon lessCodePoints)) :
    redactor.Spares requestKeys := by
  simp only [Spares, requestKeys, List.forall_mem_cons, List.not_mem_nil, false_imp_iff,
    implies_true, and_true]
  exact ⟨(unfiltered_of_walked h _ rfl rfl (noText_mapping _)).1,
    (unfiltered_of_walked h _ rfl rfl (noText_integer _)).1⟩

/-- A chunk that is still one after the walk had no key filtered. -/
theorem chunk_spared {chunk chunk' : StreamChunk F}
    (h : chunk'.dump.canon lessCodePoints = redactor.walk (chunk.dump.canon lessCodePoints)) :
    redactor.Spares chunkKeys := by
  simp only [Spares, chunkKeys, List.forall_mem_cons, List.not_mem_nil, false_imp_iff,
    implies_true, and_true]
  exact ⟨(unfiltered_of_walked h _ rfl rfl (noText_integer _)).1,
    (unfiltered_of_walked h _ rfl rfl (noText_optional noText_mapping _)).1⟩

/-- A text that is walked under a key is redacted. -/
theorem textAt_of_walked {key : String} {s s' : Text} (h : (Json.str s').canon lessCodePoints =
    if redactor.isFilteredKey key.toList then .str redacted
    else redactor.walk ((Json.str s).canon lessCodePoints)) : redactor.textAt key s = s' := by
  rw [textAt]
  split at h
  · next hkey => rw [if_pos hkey, ← Json.str.inj h]
  · next hkey => rw [if_neg hkey, Json.str.inj h]

/-- A text in a dump that is a walked dump is the redacted text. -/
theorem text_of_walked {fields fields' : List (String × Value F)}
    (h : (record fields').canon lessCodePoints =
      redactor.walk ((record fields).canon lessCodePoints)) {key : String} {s s' : Text}
    (hs : lastField key fields = some (.str s)) (hs' : lastField key fields' = some (.str s')) :
    redactor.textAt key s = s' := by
  have hfields := fields_of_walked h key
  rw [hs, hs', Option.map_some, Option.map_some, Option.some.injEq] at hfields
  exact textAt_of_walked hfields

/-- What is redacted to a text without brackets is that text. -/
theorem textAt_eq_self (hcollected : redactor.Collected) {key : String} {s s' : Text}
    (h : redactor.textAt key s = s') (hplain : '[' ∉ s' ∧ '<' ∉ s') : redactor.textAt key s = s := by
  rw [textAt] at h ⊢
  split at h
  · subst h
    exact absurd (by decide) hplain.1
  · next hkey =>
    rw [if_neg hkey]
    subst h
    rcases redactor.text_eq_or_mem hcollected s with hsame | hopen | hopen
    · exact hsame
    · exact absurd hopen hplain.1
    · exact absurd hopen hplain.2

/-- The role of a message that was validated is left alone: a text in which something was
replaced is no role. -/
theorem role_spared (hcollected : redactor.Collected) {message message' : Message}
    (h : (message'.dump : Value F).canon lessCodePoints =
      redactor.walk (message.dump.canon lessCodePoints)) :
    redactor.textAt "role" message.role.text = message.role.text := by
  refine textAt_eq_self hcollected (text_of_walked h (s := message.role.text) rfl rfl) ?_
  cases message'.role <;> decide

/-- What redaction has to leave alone in a model call: the fields that hold no text, the type
of the event and the roles of its messages. -/
structure SparesCall (redactor : Redactor F D) (call : ModelCallEvent F) : Prop where
  type : redactor.textAt "type" (Event.modelCall (D := D) call).type =
    (Event.modelCall (D := D) call).type
  fields : redactor.Spares callKeys
  params : redactor.Spares paramsKeys
  roles : ∀ message ∈ call.messages,
    redactor.textAt "role" message.role.text = message.role.text
  response : redactor.Spares responseKeys
  usage : redactor.Spares usageKeys
  requests : ∀ request ∈ call.response.toolCalls, redactor.Spares requestKeys
  stream : ∀ stream ∈ call.stream, redactor.Spares ["chunks"] ∧
    ∀ chunk ∈ stream.chunks, redactor.Spares chunkKeys

/-- The parts of a response that was validated were spared. -/
theorem response_spared {response response' : ModelResponse F}
    (h : response'.dump.canon lessCodePoints = redactor.walk (response.dump.canon lessCodePoints)) :
    redactor.Spares responseKeys ∧ redactor.Spares usageKeys ∧
      ∀ request ∈ response.toolCalls, redactor.Spares requestKeys := by
  obtain ⟨hcalls, hwalked⟩ := unfiltered_of_walked h "tool_calls" rfl rfl
    (noText_list _ _)
  obtain ⟨husage, hused⟩ := unfiltered_of_walked h "usage" rfl rfl (noText_record _)
  have hlogprobs := unfiltered_of_walked h "logprobs" rfl rfl
    (noText_optional (fun _ => noText_list _ _) _)
  refine ⟨?_, usage_spared hused, fun request hrequest => ?_⟩
  · simp only [Spares, responseKeys, List.forall_mem_cons, List.not_mem_nil, false_imp_iff,
      implies_true, and_true]
    exact ⟨hcalls, husage, hlogprobs.1⟩
  · obtain ⟨request', -, hdump⟩ := mem_of_walked hwalked hrequest
    exact request_spared hdump

/-- A stream that is still one after the walk had no key filtered, nor had its chunks. -/
theorem stream_spared {stream stream' : StreamRecord F}
    (h : stream'.dump.canon lessCodePoints = redactor.walk (stream.dump.canon lessCodePoints)) :
    redactor.Spares ["chunks"] ∧ ∀ chunk ∈ stream.chunks, redactor.Spares chunkKeys := by
  obtain ⟨hchunks, hwalked⟩ := unfiltered_of_walked h "chunks" rfl rfl (noText_list _ _)
  refine ⟨by simpa [Spares] using hchunks, fun chunk hchunk => ?_⟩
  obtain ⟨chunk', -, hdump⟩ := mem_of_walked hwalked hchunk
  exact chunk_spared hdump

/-- The walked fields of a model call are those of the redacted call. -/
theorem walk_modelCall [Sha256 D] (henabled : redactor.enabled = true) {call : ModelCallEvent F}
    (h : redactor.SparesCall call)
    (reassembles : StreamReassembles (call.stream.map redactor.stream)
      (redactor.response call.response)) :
    redactor.walk (record (Event.modelCall (D := D) call).fields) =
      record (Event.modelCall (D := D) (redactor.modelCall call reassembles)).fields := by
  have hmessages : redactor.walk (list Message.dump call.messages) =
      list Message.dump (call.messages.map redactor.message) :=
    redactor.walk_list fun message hmessage => walk_message (h.roles message hmessage)
  have htools : redactor.walk (optional (list .str) call.tools) =
      optional (list .str) (call.tools.map (List.map redactor.text)) :=
    redactor.walk_optional fun texts _ => walk_texts texts
  have hstream : redactor.walk (optional StreamRecord.dump call.stream) =
      optional StreamRecord.dump (call.stream.map redactor.stream) :=
    redactor.walk_optional fun stream hstream =>
      walk_stream henabled (h.stream stream hstream).1 (h.stream stream hstream).2
  have htype : redactor.textAt "type" (Event.modelCall (D := D) call).type =
      (Event.modelCall (D := D) (redactor.modelCall call reassembles)).type := h.type
  rw [walk_record]
  simp only [Event.fields, Event.ownFields, Event.parentCallId, Event.toolCallId,
    List.cons_append, List.nil_append, List.map_cons, List.map_nil]
  simp (disch := decide) only [walkAt_text, walkAt_optional, h.fields.walkAt]
  simp only [htype, walk_params h.params, hmessages, htools,
    walk_response henabled h.response h.usage h.requests, hstream]
  rfl

/-- A field of a model call is walked. -/
theorem field_of_recorded [Sha256 D] {call stored : ModelCallEvent F}
    (h : (Event.modelCall (D := D) stored).dumpAll.canon lessCodePoints =
      redactor.scrubbed (.modelCall call)) (key : String) {value value' : Value F}
    (hkey : key ≠ "meta")
    (hvalue : lastField key (Event.modelCall (D := D) call).fields = some value)
    (hvalue' : lastField key ((Event.modelCall (D := D) stored).fields ++
      [("meta", stored.eventMeta.dump)]) = some value') :
    value'.canon lessCodePoints = if redactor.isFilteredKey key.toList then .str redacted
      else redactor.walk (value.canon lessCodePoints) := by
  have hfield := lastField_recorded h key hkey
  rw [show redactor.readsSecret (Event.modelCall (D := D) call) = false from rfl,
    if_neg Bool.false_ne_true, List.append_nil, hvalue] at hfield
  simp only [Event.eventMeta, hvalue', Option.map_some, Option.some.injEq] at hfield
  exact hfield

/-- A call that was validated was spared, and its response and its stream are the redacted
ones. -/
theorem of_recorded_call [Sha256 D] (hcollected : redactor.Collected)
    (henabled : redactor.enabled = true) {call stored : ModelCallEvent F}
    (h : (Event.modelCall (D := D) stored).dumpAll.canon lessCodePoints =
      redactor.scrubbed (.modelCall call)) :
    redactor.SparesCall call ∧ stored.response = redactor.response call.response ∧
      stored.stream = call.stream.map redactor.stream := by
  obtain ⟨hparams, hwalkedParams⟩ := NoText.unfiltered (noText_record _)
    (field_of_recorded h "params" (by decide) rfl rfl)
  obtain ⟨htools, -⟩ := NoText.unfiltered (noText_optional (fun _ => noText_list _ _) _)
    (field_of_recorded h "tools" (by decide) rfl rfl)
  obtain ⟨hmessages, hwalkedMessages⟩ := NoText.unfiltered (noText_list _ _)
    (field_of_recorded h "messages" (by decide) rfl rfl)
  obtain ⟨hresponse, hwalkedResponse⟩ := NoText.unfiltered (noText_record _)
    (field_of_recorded h "response" (by decide) rfl rfl)
  have hrecord (stream : StreamRecord F) : NoText stream.dump := noText_record _
  obtain ⟨hstream, hwalkedStream⟩ := NoText.unfiltered (noText_optional hrecord stored.stream)
    (field_of_recorded h "stream" (by decide) rfl rfl)
  obtain ⟨hspared, husage, hrequests⟩ := response_spared hwalkedResponse
  have hchunks : ∀ stream ∈ call.stream, redactor.Spares ["chunks"] ∧
      ∀ chunk ∈ stream.chunks, redactor.Spares chunkKeys := by
    intro stream hsome
    rw [Option.mem_def] at hsome
    rw [hsome] at hwalkedStream
    have hnull : redactor.walk ((StreamRecord.dump stream).canon lessCodePoints) ≠ .null := by
      rw [redactor.walk_canon_comm, StreamRecord.dump, walk_record]
      intro hnull
      cases hnull
    obtain ⟨stream', -, hdump⟩ := some_of_walked hnull hwalkedStream
    exact stream_spared hdump
  have hcall : redactor.SparesCall call := {
    type := textAt_of_walked (field_of_recorded h "type" (by decide) rfl rfl)
    fields := by
      simp only [Spares, callKeys, List.forall_mem_cons, List.not_mem_nil, false_imp_iff,
        implies_true, and_true]
      exact ⟨hparams, htools, hmessages, hresponse, hstream⟩
    params := params_spared hwalkedParams
    roles := by
      intro message hmessage
      obtain ⟨message', -, hdump⟩ := mem_of_walked hwalkedMessages hmessage
      exact role_spared hcollected hdump
    response := hspared
    usage := husage
    requests := hrequests
    stream := hchunks }
  refine ⟨hcall, ?_, ?_⟩
  · rw [redactor.walk_canon_comm, walk_response henabled hspared husage hrequests] at hwalkedResponse
    exact response_loads.injective hwalkedResponse
  · have hwalked : redactor.walk (optional StreamRecord.dump call.stream) =
        optional StreamRecord.dump (call.stream.map redactor.stream) :=
      redactor.walk_optional fun stream hsome =>
        walk_stream henabled (hchunks stream hsome).1 (hchunks stream hsome).2
    rw [redactor.walk_canon_comm, hwalked] at hwalkedStream
    have hloads := congrArg (optional? StreamRecord.load) hwalkedStream
    rw [optional_loads stream_loads, optional_loads stream_loads] at hloads
    exact Option.some.inj hloads

end Redactor

end Tracewake.Recording
