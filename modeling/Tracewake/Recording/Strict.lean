import Tracewake.Recording.Dump

/-!
# A strict validator

Validation that accepts exactly the dumps: every field has to be there with a value of
its type. It satisfies what is assumed of `pydantic`, so the assumptions can be met. With
it come floating point numbers and digests that can be computed with, so that runs can be
evaluated.
-/

namespace Tracewake.Recording

open JsonText
open Results (lessCodePoints keyOrder)

variable {F D α : Type}

/-! ## Loading values -/

def text? : Value F → Option Text
  | .str s => some s
  | _ => none

def bool? : Value F → Option Bool
  | .bool b => some b
  | _ => none

def integer? : Value F → Option ℤ
  | .num (.int n) => some n
  | _ => none

def natural? (value : Value F) : Option ℕ := do
  let n ← integer? value
  if 0 ≤ n then some n.toNat else none

def float? : Value F → Option F
  | .num (.float x) => some x
  | _ => none

def optional? (load : Value F → Option α) : Value F → Option (Option α)
  | .null => some none
  | value => (load value).map some

def list? (load : Value F → Option α) : Value F → Option (List α)
  | .arr items => items.mapM load
  | _ => none

/-- Load the value under a key. -/
def get? (key : String) (load : Value F → Option α) (value : Value F) : Option α :=
  (value.field key.toList).bind load

/-- The loader gives back what was dumped, and takes `None` for no value. -/
structure Loads (load : Value F → Option α) (dump : α → Value F) : Prop where
  dumped : ∀ a, load ((dump a).canon lessCodePoints) = some a
  null : load .null = none

/-- What can be loaded is determined by its dump. -/
theorem Loads.injective {load : Value F → Option α} {dump : α → Value F} (h : Loads load dump)
    {a b : α} (hdump : (dump a).canon lessCodePoints = (dump b).canon lessCodePoints) : a = b := by
  have hload := h.dumped a
  rw [hdump, h.dumped] at hload
  exact (Option.some.inj hload).symm

/-- A text that was dumped loads as itself. -/
theorem text_loads : Loads (text? (F := F)) .str := ⟨fun _ => rfl, rfl⟩

/-- A truth value that was dumped loads as itself. -/
theorem bool_loads : Loads (bool? (F := F)) .bool := ⟨fun _ => rfl, rfl⟩

/-- An integer that was dumped loads as itself. -/
theorem integer_loads : Loads (integer? (F := F)) integer := ⟨fun _ => rfl, rfl⟩

/-- A float that was dumped loads as itself. -/
theorem float_loads : Loads (float? (F := F)) float := ⟨fun _ => rfl, rfl⟩

/-- A natural number that was dumped loads as itself: it is not negative. -/
theorem natural_loads : Loads (natural? (F := F)) fun n : ℕ => integer n := by
  refine ⟨fun n => ?_, rfl⟩
  simp [natural?, integer_loads.dumped]

/-- An optional value loads as itself if the value does. What is dumped for none is `null`,
and nothing else that is dumped loads as none. -/
theorem optional_loads {load : Value F → Option α} {dump : α → Value F} (h : Loads load dump)
    (a : Option α) : optional? load ((optional dump a).canon lessCodePoints) = some a := by
  cases a with
  | none => rfl
  | some a =>
    have hload := h.dumped a
    have hnull : (dump a).canon lessCodePoints ≠ .null := by
      intro heq
      rw [heq, h.null] at hload
      cases hload
    simp only [optional]
    generalize (dump a).canon lessCodePoints = value at hload hnull
    cases value with
    | null => exact absurd rfl hnull
    | bool | num | str | arr | obj => simp [optional?, hload]

/-- A list loads as itself if its elements do. -/
theorem list_loads {load : Value F → Option α} {dump : α → Value F} (h : Loads load dump) :
    Loads (list? load) (list dump) := by
  refine ⟨fun values => ?_, rfl⟩
  simp only [list, Json.canon, Json.canonItems_eq, list?, List.map_map, List.mapM_map]
  induction values with
  | nil => rfl
  | cons value rest ih =>
    simp only [List.mapM_cons, Function.comp, h.dumped, Option.bind_eq_bind, Option.bind_some] at ih ⊢
    rw [ih]
    rfl

/-- A record has the last of its fields with a name. -/
theorem field_record (key : String) (fields : List (String × Value F)) :
    (record fields).field key.toList =
      (fields.reverse.find? fun field => field.1 = key).map Prod.snd := by
  simp only [record, Json.field, ← List.map_reverse, List.find?_map, Option.map_map]
  have hkey : ((fun f : Text × Value F => decide (f.1 = key.toList)) ∘
      fun field : String × Value F => (field.1.toList, field.2)) =
      fun field => decide (field.1 = key) := by
    funext field
    simp [String.toList_inj]
  rw [hkey]
  rfl

/-- Loading a field of a dumped record. -/
theorem get_record (key : String) (load : Value F → Option α) (fields : List (String × Value F)) :
    get? key load ((record fields).canon lessCodePoints) =
      (fields.reverse.find? fun field => field.1 = key).bind fun field =>
        load (field.2.canon lessCodePoints) := by
  rw [get?, Json.field_canon keyOrder, field_record]
  cases fields.reverse.find? fun field => field.1 = key <;> rfl

/-! ## Loading records -/

/-- The one of several names that a text is. -/
def named? (all : List α) (name : α → Text) (value : Value F) : Option α := do
  let text ← text? value
  all.find? fun a => name a = text

def role? (value : Value F) : Option Role :=
  named? [.system, .user, .assistant, .tool] Role.text value

def status? (value : Value F) : Option Status :=
  named? [.ok, .error] Status.text value

def source? (value : Value F) : Option EnvironmentSource :=
  named? [.clock, .monotonic, .perfCounter, .random, .uuid, .env] EnvironmentSource.text value

def readKind? (value : Value F) : Option ReadKind :=
  named? [.content, .listing, .exists] ReadKind.text value

def digest? [Sha256 D] (value : Value F) : Option D := (text? value).bind Sha256.ofHex

def canonical? [Python F] (value : Value F) : Option (CanonicalValue F) := some (sortKeys value)

def mapping? [Python F] : Value F → Option (CanonicalMapping F)
  | .obj fields => some ⟨Json.canonFields lessCodePoints fields, canonFields_canonical fields⟩
  | _ => none

def BlobRef.load [Sha256 D] (value : Value F) : Option (BlobRef D) := do
  return ⟨← get? "digest" digest? value, ← get? "size" natural? value⟩

def EventMeta.load (value : Value F) : Option (EventMeta F) := do
  return ⟨← get? "recorded_at" float? value, ← get? "duration_ms" (optional? float?) value,
    ← get? "chunk_offsets_ms" (optional? (list? float?)) value⟩

def Message.load (value : Value F) : Option Message := do
  return ⟨← get? "role" role? value, ← get? "content" text? value,
    ← get? "tool_call_id" (optional? text?) value, ← get? "provenance" (optional? text?) value⟩

def DecodeParams.load (value : Value F) : Option (DecodeParams F) := do
  return ⟨← get? "temperature" (optional? float?) value, ← get? "top_p" (optional? float?) value,
    ← get? "max_tokens" (optional? integer?) value, ← get? "stop" (optional? (list? text?)) value,
    ← get? "seed" (optional? integer?) value⟩

def ModelIdentity.load (value : Value F) : Option ModelIdentity := do
  return ⟨← get? "provider" text? value, ← get? "model_id" text? value,
    ← get? "model_version" (optional? text?) value⟩

def ToolCallRequest.load [Python F] (value : Value F) : Option (ToolCallRequest F) := do
  return ⟨← get? "id" text? value, ← get? "name" text? value, ← get? "args" mapping? value,
    ← get? "batch_index" integer? value⟩

def Usage.load (value : Value F) : Option Usage := do
  return ⟨← get? "input_tokens" integer? value, ← get? "output_tokens" integer? value,
    ← get? "cached_input_tokens" integer? value⟩

def ModelResponse.load [Python F] (value : Value F) : Option (ModelResponse F) := do
  return ⟨← get? "text" text? value, ← get? "tool_calls" (list? ToolCallRequest.load) value,
    ← get? "finish_reason" text? value, ← get? "usage" Usage.load value,
    ← get? "logprobs" (optional? (list? canonical?)) value⟩

def StreamChunk.load [Python F] (value : Value F) : Option (StreamChunk F) := do
  return ⟨← get? "index" integer? value, ← get? "text_delta" text? value,
    ← get? "tool_call_delta" (optional? mapping?) value⟩

def StreamRecord.load [Python F] (value : Value F) : Option (StreamRecord F) := do
  return ⟨← get? "chunks" (list? StreamChunk.load) value⟩

/-- Different names are loaded to what they name. -/
theorem named_loads {all : List α} {name : α → Text} (hall : ∀ a, a ∈ all)
    (hname : ∀ a ∈ all, ∀ b ∈ all, name a = name b → a = b) :
    Loads (named? (F := F) all name) fun a => .str (name a) := by
  refine ⟨fun a => ?_, rfl⟩
  have hfind : all.find? (fun b => name b = name a) = some a := by
    have hfound : (all.find? fun b => name b = name a).isSome = true :=
      List.find?_isSome.mpr ⟨a, hall a, by simp⟩
    obtain ⟨b, hb⟩ := Option.isSome_iff_exists.mp hfound
    have hsame := hname b (List.mem_of_find?_eq_some hb) a (hall a) (by simpa using List.find?_some hb)
    rw [hb, hsame]
  exact hfind

/-- A role that was dumped loads as itself. -/
theorem role_loads : Loads (role? (F := F)) fun role => .str role.text :=
  named_loads (by intro role; cases role <;> decide) (by decide)

/-- A status that was dumped loads as itself. -/
theorem status_loads : Loads (status? (F := F)) fun status => .str status.text :=
  named_loads (by intro status; cases status <;> decide) (by decide)

/-- The source of an environment value loads as itself. -/
theorem source_loads : Loads (source? (F := F)) fun source => .str source.text :=
  named_loads (by intro source; cases source <;> decide) (by decide)

/-- The kind of a read loads as itself. -/
theorem readKind_loads : Loads (readKind? (F := F)) fun kind => .str kind.text :=
  named_loads (by intro kind; cases kind <;> decide) (by decide)

/-- A digest loads as itself, since its hexadecimal digits determine it. -/
theorem digest_loads [Sha256 D] :
    Loads (digest? (F := F) (D := D)) fun digest => .str (Sha256.hex digest) :=
  ⟨fun digest => (Sha256.ofHex_eq _ digest).mpr rfl, by simp [digest?, text?]⟩

/-- A canonical value stays what it is when its keys are sorted again. -/
theorem canonical_dumped [Python F] (value : CanonicalValue F) :
    canonical? (value.value.canon lessCodePoints) = some value := by
  obtain ⟨value, hsorted⟩ := value
  simp [canonical?, sortKeys, hsorted]

/-- A canonical mapping that was dumped loads as itself. -/
theorem mapping_loads [Python F] : Loads (mapping? (F := F)) CanonicalMapping.value := by
  refine ⟨fun mapping => ?_, rfl⟩
  obtain ⟨fields, hsorted⟩ := mapping
  have hfields : Json.canonFields lessCodePoints fields = fields := Json.obj.inj hsorted
  simp [mapping?, CanonicalMapping.value, Json.canon, hfields]

/-- A reference to a blob loads as itself, field by field. -/
theorem blobRef_loads [Sha256 D] :
    Loads (BlobRef.load (F := F) (D := D)) BlobRef.dump := by
  refine ⟨fun ref => ?_, by simp [BlobRef.load, get?, Json.field]⟩
  simp [BlobRef.load, BlobRef.dump, get_record, digest_loads.dumped, natural_loads.dumped]

/-- The metadata of an event load as themselves, field by field. -/
theorem eventMeta_loads : Loads (EventMeta.load (F := F)) EventMeta.dump := by
  refine ⟨fun value => ?_, by simp [EventMeta.load, get?, Json.field]⟩
  simp [EventMeta.load, EventMeta.dump, get_record, float_loads.dumped,
    optional_loads float_loads, optional_loads (list_loads float_loads)]

/-- A message loads as itself, field by field. -/
theorem message_loads : Loads (Message.load (F := F)) Message.dump := by
  refine ⟨fun message => ?_, by simp [Message.load, get?, Json.field]⟩
  simp [Message.load, Message.dump, Message.sent, get_record, role_loads.dumped, text_loads.dumped,
    optional_loads text_loads]

/-- The parameters of a call load as themselves, field by field. -/
theorem params_loads : Loads (DecodeParams.load (F := F)) DecodeParams.dump := by
  refine ⟨fun params => ?_, by simp [DecodeParams.load, get?, Json.field]⟩
  simp [DecodeParams.load, DecodeParams.dump, get_record, optional_loads float_loads,
    optional_loads integer_loads, optional_loads (list_loads text_loads)]

/-- A tool request loads as itself, field by field. -/
theorem toolCallRequest_loads [Python F] :
    Loads (ToolCallRequest.load (F := F)) ToolCallRequest.dump := by
  refine ⟨fun request => ?_, by simp [ToolCallRequest.load, get?, Json.field]⟩
  simp [ToolCallRequest.load, ToolCallRequest.dump, get_record, text_loads.dumped,
    mapping_loads.dumped, integer_loads.dumped]

/-- A usage record loads as itself, field by field. -/
theorem usage_loads : Loads (Usage.load (F := F)) Usage.dump := by
  refine ⟨fun usage => ?_, by simp [Usage.load, get?, Json.field]⟩
  simp [Usage.load, Usage.dump, get_record, integer_loads.dumped]

/-- A list of canonical values loads as itself. -/
theorem canonicals_loads [Python F] :
    Loads (list? (canonical? (F := F))) (list CanonicalValue.value) := by
  refine ⟨fun values => ?_, rfl⟩
  simp only [list, Json.canon, Json.canonItems_eq, list?, List.map_map, List.mapM_map]
  induction values with
  | nil => rfl
  | cons value rest ih =>
    simp only [List.mapM_cons, Function.comp, canonical_dumped, Option.bind_eq_bind,
      Option.bind_some] at ih ⊢
    rw [ih]
    rfl

/-- A response loads as itself, field by field. -/
theorem response_loads [Python F] : Loads (ModelResponse.load (F := F)) ModelResponse.dump := by
  refine ⟨fun response => ?_, by simp [ModelResponse.load, get?, Json.field]⟩
  simp [ModelResponse.load, ModelResponse.dump, get_record, text_loads.dumped,
    (list_loads toolCallRequest_loads).dumped, usage_loads.dumped, optional_loads canonicals_loads]

/-- A chunk loads as itself, field by field. -/
theorem chunk_loads [Python F] : Loads (StreamChunk.load (F := F)) StreamChunk.dump := by
  refine ⟨fun chunk => ?_, by simp [StreamChunk.load, get?, Json.field]⟩
  simp [StreamChunk.load, StreamChunk.dump, get_record, integer_loads.dumped, text_loads.dumped,
    optional_loads mapping_loads]

/-- A stream record loads as itself, field by field. -/
theorem stream_loads [Python F] : Loads (StreamRecord.load (F := F)) StreamRecord.dump := by
  refine ⟨fun stream => ?_, by simp [StreamRecord.load, get?, Json.field]⟩
  simp [StreamRecord.load, StreamRecord.dump, get_record, (list_loads chunk_loads).dumped]

/-! ## Loading events -/

variable [Python F]

/-- The fields that all events share. -/
def EventBase.load (value : Value F) : Option (EventBase F) := do
  return ⟨← get? "parent_call_id" (optional? text?) value,
    ← get? "tool_call_id" (optional? text?) value, ← get? "meta" EventMeta.load value⟩

def ModelCallEvent.load (value : Value F) : Option (ModelCallEvent F) := do
  let base ← EventBase.load value
  let response ← get? "response" ModelResponse.load value
  let stream ← get? "stream" (optional? StreamRecord.load) value
  if reassembles : StreamReassembles stream response then
    return {
      toEventBase := base
      callId := ← get? "call_id" text? value
      provider := ← get? "provider" text? value
      modelId := ← get? "model_id" text? value
      modelVersion := ← get? "model_version" (optional? text?) value
      params := ← get? "params" DecodeParams.load value
      tools := ← get? "tools" (optional? (list? text?)) value
      messages := ← get? "messages" (list? Message.load) value
      messagesHash := ← get? "messages_hash" text? value
      response, stream, reassembles }
  else none

variable [Sha256 D]

def ToolCallEvent.load (value : Value F) : Option (ToolCallEvent F D) := do
  return ⟨← get? "parent_call_id" text? value, ← get? "tool_call_id" text? value,
    ← get? "batch_index" integer? value, ← get? "name" text? value, ← get? "args" mapping? value,
    ← get? "args_hash" text? value, ← get? "result" BlobRef.load value,
    ← get? "status" status? value, ← get? "error" (optional? text?) value,
    ← get? "meta" EventMeta.load value⟩

def EnvironmentEvent.load (value : Value F) : Option (EnvironmentEvent F) := do
  return ⟨← EventBase.load value, ← get? "source" source? value,
    ← get? "key" (optional? text?) value, ← get? "value" canonical? value⟩

def FsReadEvent.load (value : Value F) : Option (FsReadEvent F D) := do
  return ⟨← EventBase.load value, ← get? "path" text? value, ← get? "kind" readKind? value,
    ← get? "exists" bool? value, ← get? "content" (optional? BlobRef.load) value⟩

def FsWriteEvent.load (value : Value F) : Option (FsWriteEvent F D) := do
  return ⟨← EventBase.load value, ← get? "path" text? value, ← get? "content" BlobRef.load value⟩

def OutcomeEvent.load (value : Value F) : Option (OutcomeEvent F D) := do
  return ⟨← EventBase.load value, ← get? "status" status? value,
    ← get? "error" (optional? text?) value, ← get? "usage" Usage.load value,
    ← get? "coverage" (optional? bool?) value, ← get? "resolve" (optional? bool?) value,
    ← get? "patch" (optional? BlobRef.load) value, ← get? "test_summary" (optional? text?) value⟩

def InterventionEvent.load (value : Value F) : Option (InterventionEvent F) := do
  return ⟨← EventBase.load value, ← get? "source_run_id" text? value,
    ← get? "drop_tags" (list? text?) value, ← get? "from_turn" integer? value⟩

/-- The event types. -/
inductive EventKind where
  | modelCall | toolCall | environment | fsRead | fsWrite | outcome | intervention
  deriving DecidableEq

def EventKind.text : EventKind → Text
  | .modelCall => "model_call".toList
  | .toolCall => "tool_call".toList
  | .environment => "environment".toList
  | .fsRead => "fs_read".toList
  | .fsWrite => "fs_write".toList
  | .outcome => "outcome".toList
  | .intervention => "intervention".toList

def eventKind? (value : Value F) : Option EventKind :=
  named? [.modelCall, .toolCall, .environment, .fsRead, .fsWrite, .outcome, .intervention]
    EventKind.text value

/-- The discriminated union of the event types. -/
def Event.load (value : Value F) : Option (Event F D) := do
  match ← get? "type" eventKind? value with
  | .modelCall => return .modelCall (← ModelCallEvent.load value)
  | .toolCall => return .toolCall (← ToolCallEvent.load value)
  | .environment => return .environment (← EnvironmentEvent.load value)
  | .fsRead => return .fsRead (← FsReadEvent.load value)
  | .fsWrite => return .fsWrite (← FsWriteEvent.load value)
  | .outcome => return .outcome (← OutcomeEvent.load value)
  | .intervention => return .intervention (← InterventionEvent.load value)

/-- A field of an event that stands before the `meta`. -/
theorem get_event (event : Event F D) (key : String) (load : Value F → Option α) :
    get? key load (event.dumpAll.canon lessCodePoints) =
      ((event.fields ++ [("meta", event.eventMeta.dump)]).reverse.find? fun field =>
        field.1 = key).bind fun field => load (field.2.canon lessCodePoints) :=
  get_record key load _

/-- The fields that all events share are read back from the dump of any event. -/
theorem base_load (event : Event F D) :
    EventBase.load (event.dumpAll.canon lessCodePoints) =
      some ⟨event.parentCallId, event.toolCallId, event.eventMeta⟩ := by
  cases event <;>
    simp [EventBase.load, get_event, Event.fields, Event.ownFields, Event.parentCallId,
      Event.toolCallId, Event.eventMeta, optional_loads text_loads, eventMeta_loads.dumped]

omit [Python F] [Sha256 D] in
/-- The kind of an event loads as itself. -/
theorem eventKind_loads : Loads (eventKind? (F := F)) fun kind => .str kind.text :=
  named_loads (by intro kind; cases kind <;> decide) (by decide)

/-- The dump of an event names its kind. -/
theorem kind_load (event : Event F D) (kind : EventKind) (h : event.type = kind.text) :
    get? "type" eventKind? (event.dumpAll.canon lessCodePoints) = some kind := by
  have hfield : get? "type" eventKind? (event.dumpAll.canon lessCodePoints) =
      eventKind? ((Json.str event.type : Value F).canon lessCodePoints) := by
    cases event <;> simp [get_event, Event.fields, Event.ownFields]
  rw [hfield, h]
  exact eventKind_loads.dumped kind

/-- A model call is read back from its dump. -/
theorem modelCall_load (event : ModelCallEvent F) :
    ModelCallEvent.load ((Event.modelCall (D := D) event).dumpAll.canon lessCodePoints) =
      some event := by
  simp [ModelCallEvent.load, base_load, get_event, Event.fields, Event.ownFields,
    text_loads.dumped, optional_loads text_loads, optional_loads (list_loads text_loads),
    params_loads.dumped, (list_loads message_loads).dumped, response_loads.dumped,
    optional_loads stream_loads, event.reassembles, Event.parentCallId, Event.toolCallId,
    Event.eventMeta]

/-- A tool call is read back from its dump. -/
theorem toolCall_load (event : ToolCallEvent F D) :
    ToolCallEvent.load ((Event.toolCall event).dumpAll.canon lessCodePoints) = some event := by
  have hsome : ∀ text : Text,
      text? ((optional .str (some text) : Value F).canon lessCodePoints) = some text :=
    fun _ => rfl
  simp [ToolCallEvent.load, get_event, Event.fields, Event.ownFields, text_loads.dumped, hsome,
    optional_loads text_loads, integer_loads.dumped, mapping_loads.dumped, blobRef_loads.dumped,
    status_loads.dumped, eventMeta_loads.dumped, Event.parentCallId, Event.toolCallId,
    Event.eventMeta]

/-- An environment value is read back from its dump. -/
theorem environment_load (event : EnvironmentEvent F) :
    EnvironmentEvent.load ((Event.environment (D := D) event).dumpAll.canon lessCodePoints) =
      some event := by
  simp [EnvironmentEvent.load, base_load, get_event, Event.fields, Event.ownFields,
    optional_loads text_loads, source_loads.dumped, canonical_dumped, Event.parentCallId,
    Event.toolCallId, Event.eventMeta]

/-- A read of a file is read back from its dump. -/
theorem fsRead_load (event : FsReadEvent F D) :
    FsReadEvent.load ((Event.fsRead event).dumpAll.canon lessCodePoints) = some event := by
  simp [FsReadEvent.load, base_load, get_event, Event.fields, Event.ownFields, text_loads.dumped,
    readKind_loads.dumped, bool_loads.dumped, optional_loads blobRef_loads, Event.parentCallId,
    Event.toolCallId, Event.eventMeta]

/-- A write of a file is read back from its dump. -/
theorem fsWrite_load (event : FsWriteEvent F D) :
    FsWriteEvent.load ((Event.fsWrite event).dumpAll.canon lessCodePoints) = some event := by
  simp [FsWriteEvent.load, base_load, get_event, Event.fields, Event.ownFields, text_loads.dumped,
    blobRef_loads.dumped, Event.parentCallId, Event.toolCallId, Event.eventMeta]

/-- An outcome is read back from its dump. -/
theorem outcome_load (event : OutcomeEvent F D) :
    OutcomeEvent.load ((Event.outcome event).dumpAll.canon lessCodePoints) = some event := by
  simp [OutcomeEvent.load, base_load, get_event, Event.fields, Event.ownFields,
    optional_loads text_loads, optional_loads bool_loads, optional_loads blobRef_loads,
    status_loads.dumped, usage_loads.dumped, Event.parentCallId, Event.toolCallId,
    Event.eventMeta]

/-- An intervention is read back from its dump. -/
theorem intervention_load (event : InterventionEvent F) :
    InterventionEvent.load ((Event.intervention (D := D) event).dumpAll.canon lessCodePoints) =
      some event := by
  simp [InterventionEvent.load, base_load, get_event, Event.fields, Event.ownFields,
    text_loads.dumped, (list_loads text_loads).dumped, integer_loads.dumped, Event.parentCallId,
    Event.toolCallId, Event.eventMeta]

/-- Every dumped event is loaded. -/
theorem load_dumpAll (event : Event F D) :
    Event.load (event.dumpAll.canon lessCodePoints) = some event := by
  cases event with
  | modelCall event =>
    simp only [Event.load, kind_load (.modelCall event) .modelCall rfl, Option.bind_eq_bind, Option.bind_some,
      modelCall_load, Option.pure_def]
  | toolCall event =>
    simp only [Event.load, kind_load (.toolCall event) .toolCall rfl, Option.bind_eq_bind, Option.bind_some,
      toolCall_load, Option.pure_def]
  | environment event =>
    simp only [Event.load, kind_load (.environment event) .environment rfl, Option.bind_eq_bind, Option.bind_some,
      environment_load, Option.pure_def]
  | fsRead event =>
    simp only [Event.load, kind_load (.fsRead event) .fsRead rfl, Option.bind_eq_bind, Option.bind_some,
      fsRead_load, Option.pure_def]
  | fsWrite event =>
    simp only [Event.load, kind_load (.fsWrite event) .fsWrite rfl, Option.bind_eq_bind, Option.bind_some,
      fsWrite_load, Option.pure_def]
  | outcome event =>
    simp only [Event.load, kind_load (.outcome event) .outcome rfl, Option.bind_eq_bind, Option.bind_some,
      outcome_load, Option.pure_def]
  | intervention event =>
    simp only [Event.load, kind_load (.intervention event) .intervention rfl, Option.bind_eq_bind, Option.bind_some,
      intervention_load, Option.pure_def]

/-- The strict validator meets what is assumed of `pydantic`. -/
@[reducible] def strict : Pydantic F D where
  validate := Event.load
  validateMessage := Message.load
  metaJson value := canonicalJson value.dump
  validate_dumpAll := load_dumpAll
  validateMessage_dump := message_loads.dumped
  loads_metaJson value := loads_canonicalJson value.dump

/-! ## Numbers and digests to compute with -/

/-- A floating point number by its spelling. -/
structure Decimal where
  text : Text
  isNumber : isNumber text = true
  fraction : ¬ Integral text
  deriving DecidableEq

instance : Python Decimal where
  repr x := x.text
  parse token :=
    if h : JsonText.isNumber token = true ∧ ¬ Integral token then some ⟨token, h.1, h.2⟩ else none
  str
    | .str s => s
    | value => value.print ⟨escapeChar fun c => ¬ c < ' ', fun
      | .int n => printInt n
      | .float x => x.text⟩
  isNumber_repr x := x.isNumber
  not_integral_repr x := x.fraction
  parse_repr x := dif_pos ⟨x.isNumber, x.fraction⟩
  str_str _ := rfl

/-- A text of 64 lowercase hexadecimal digits. -/
def isHexDigest (text : Text) : Bool :=
  text.length = 64 && text.all fun c => ('0' ≤ c && c ≤ '9') || ('a' ≤ c && c ≤ 'f')

/-- A digest by its spelling. -/
structure HexDigest where
  text : Text
  valid : isHexDigest text = true
  deriving DecidableEq

/-- The two digits of a byte. -/
def hexByte (byte : UInt8) : Text :=
  [Nat.digitChar (byte.toNat / 16), Nat.digitChar (byte.toNat % 16)]

/-- The digits of the first bytes, filled up with zeros: short data have digests of
their own. -/
def spellDigest (data : List UInt8) : Text :=
  (data.flatMap hexByte ++ List.replicate 64 '0').take 64

/-- The digest of the example is one: it has 64 hexadecimal digits. -/
theorem spellDigest_valid (data : List UInt8) : isHexDigest (spellDigest data) = true := by
  have hdigit : ∀ n < 16, (('0' ≤ Nat.digitChar n && Nat.digitChar n ≤ '9') ||
      ('a' ≤ Nat.digitChar n && Nat.digitChar n ≤ 'f')) = true := by decide
  simp only [isHexDigest, Bool.and_eq_true, decide_eq_true_eq, List.all_eq_true]
  constructor
  · simp [spellDigest]
  · intro c hc
    rcases List.mem_append.mp (List.mem_of_mem_take hc) with hc | hc
    · obtain ⟨byte, _, hc⟩ := List.mem_flatMap.mp hc
      have hbyte := byte.toNat_lt
      rcases List.mem_pair.mp hc with rfl | rfl
      · exact hdigit _ (by omega)
      · exact hdigit _ (by omega)
    · rw [List.eq_of_mem_replicate hc]
      decide

instance : Sha256 HexDigest where
  hex digest := digest.text
  ofHex text := if h : isHexDigest text = true then some ⟨text, h⟩ else none
  hash data := ⟨spellDigest data, spellDigest_valid data⟩
  ofHex_eq text d := by
    constructor
    · intro h
      obtain ⟨_, h⟩ := Option.dite_none_right_eq_some.mp h
      rw [← Option.some.inj h]
    · rintro rfl
      exact dif_pos d.valid

instance : Pydantic Decimal HexDigest := strict

end Tracewake.Recording
