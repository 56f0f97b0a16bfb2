import Tracewake.Recording.RedactedCalls
import Tracewake.Recording.PureReplay

/-!
# Redacted streams

The response of a model call is redacted as one text and each chunk of its stream alone. The
redacted stream reassembles where nothing that is replaced in the text lies across the
chunks, and then validation has to give the redacted call back.
-/

namespace Tracewake.Recording

open JsonText Texts
open Results (lessCodePoints keyOrder)

variable {F D : Type} [Python F]

namespace Redactor

variable {redactor : Redactor F D}

/-! ## Streams -/

/-- The response and the chunks are redacted as texts, everything that is replaced in the
response lies within one of the chunks, and the ids in the tool call deltas are redacted as
those of the tool calls are. -/
structure KeepsStream (redactor : Redactor F D) (stream : StreamRecord F)
    (response : ModelResponse F) : Prop where
  text : redactor.textAt "text" response.text = redactor.text response.text
  deltas : ∀ chunk ∈ stream.chunks,
    redactor.textAt "text_delta" chunk.textDelta = redactor.text chunk.textDelta
  within : redactor.WithinPieces (stream.chunks.map fun chunk => chunk.textDelta)
  ids : ∀ chunk ∈ stream.chunks, ∀ delta ∈ chunk.toolCallDelta, ∀ id ∈ delta.get? "id".toList,
    Python.str (redactor.walkAt "id" id) = redactor.textAt "id" (Python.str id)

/-- The chunks are redacted to the redacted text. -/
theorem KeepsStream.flatten (hcollected : redactor.Collected) {stream : StreamRecord F}
    {response : ModelResponse F} (h : redactor.KeepsStream stream response) :
    (stream.chunks.map fun chunk => redactor.textAt "text_delta" chunk.textDelta).flatten =
      redactor.text (stream.chunks.flatMap fun chunk => chunk.textDelta) := by
  have hpieces : (stream.chunks.map fun chunk => redactor.textAt "text_delta" chunk.textDelta) =
      (stream.chunks.map fun chunk => chunk.textDelta).map redactor.text := by
    rw [List.map_map]
    exact List.map_congr_left h.deltas
  rw [hpieces, text_flatten hcollected h.within, List.flatMap_def]

/-- A key of a mapping that was redacted. -/
theorem args_get (henabled : redactor.enabled = true) (mapping : CanonicalMapping F) (key : Text) :
    (redactor.args mapping).get? key = (mapping.get? key).map fun value =>
      if redactor.isFilteredKey key then .str redacted else redactor.walk value := by
  have hfields : ∀ fields : List (Text × Value F),
      (Json.obj (redactor.walkFields fields)).field key = ((Json.obj fields).field key).map
        fun value => if redactor.isFilteredKey key then .str redacted else redactor.walk value := by
    intro fields
    simp only [Json.field, walkFields_eq, ← List.map_reverse, List.find?_map, Option.map_map]
    have hfind : ((fun f : Text × Value F => decide (f.1 = key)) ∘ fun f : Text × Value F =>
        (f.1, if redactor.isFilteredKey f.1 then .str redacted else redactor.walk f.2)) =
        fun f : Text × Value F => decide (f.1 = key) := rfl
    rw [hfind]
    cases hfound : fields.reverse.find? fun f : Text × Value F => decide (f.1 = key) with
    | none => rfl
    | some f =>
      have hkey : f.1 = key := by simpa using List.find?_some hfound
      simp [hkey]
  rw [args, if_pos henabled]
  exact hfields mapping.fields

/-- The ids in the deltas are redacted one by one. -/
theorem deltaIds_redacted (henabled : redactor.enabled = true) {chunks : List (StreamChunk F)}
    (h : ∀ chunk ∈ chunks, ∀ delta ∈ chunk.toolCallDelta, ∀ id ∈ delta.get? "id".toList,
      Python.str (redactor.walkAt "id" id) = redactor.textAt "id" (Python.str id)) :
    deltaIds (chunks.map redactor.chunk) = (deltaIds chunks).map (redactor.textAt "id") := by
  rw [deltaIds, deltaIds, List.filterMap_map, List.map_filterMap]
  refine List.filterMap_congr fun chunk hchunk => ?_
  have hids := h chunk hchunk
  simp only [Function.comp, Redactor.chunk]
  cases hdelta : chunk.toolCallDelta with
  | none => rfl
  | some delta =>
    simp only [Option.map_some, Option.bind_some, args_get henabled]
    cases hid : delta.get? "id".toList with
    | none => rfl
    | some id => exact congrArg some (hids delta hdelta id hid)

/-- The redacted stream reassembles to the redacted response. -/
theorem reassembles_redacted (hcollected : redactor.Collected) (henabled : redactor.enabled = true)
    (call : ModelCallEvent F) (h : ∀ stream ∈ call.stream, redactor.KeepsStream stream call.response) :
    StreamReassembles (call.stream.map redactor.stream) (redactor.response call.response) := by
  rintro record hrecord
  obtain ⟨stream, hstream, rfl⟩ := Option.map_eq_some_iff.mp hrecord
  obtain ⟨htext, hids⟩ := call.reassembles stream hstream
  have hkeeps := h stream hstream
  have hdeltas := deltaIds_redacted henabled hkeeps.ids
  constructor
  · have hflatten := hkeeps.flatten hcollected
    rw [htext, ← hkeeps.text] at hflatten
    simpa [Redactor.stream, Redactor.response, Redactor.chunk, List.flatMap_def, Function.comp_def]
      using hflatten
  · intro hsome
    have hbefore : deltaIds stream.chunks ≠ [] := by
      rintro hnone
      rw [Redactor.stream, hdeltas, hnone] at hsome
      exact hsome rfl
    have hperm := (hids hbefore).map (redactor.textAt "id")
    rw [Redactor.stream, hdeltas]
    simpa [Redactor.response, Redactor.request, Function.comp_def] using hperm

/-- Something lies across the chunks, and the redacted stream reassembles by coincidence. -/
def Coincides (redactor : Redactor F D) (call : ModelCallEvent F) : Prop :=
  (¬ ∀ stream ∈ call.stream, redactor.KeepsStream stream call.response) ∧
    StreamReassembles (call.stream.map redactor.stream) (redactor.response call.response)

/-- What redaction has to leave alone in a model call, and how its stream has to be split. -/
structure Keeps (redactor : Redactor F D) (call : ModelCallEvent F) : Prop where
  spares : redactor.SparesCall call
  stream : (∀ stream ∈ call.stream, redactor.KeepsStream stream call.response) ∨
    redactor.Coincides call

/-- The stream of a call that is kept reassembles. -/
theorem Keeps.reassembles (hcollected : redactor.Collected) (henabled : redactor.enabled = true)
    {call : ModelCallEvent F} (h : redactor.Keeps call) :
    StreamReassembles (call.stream.map redactor.stream) (redactor.response call.response) := by
  rcases h.stream with hkeeps | ⟨-, hcoincides⟩
  · exact reassembles_redacted hcollected henabled call hkeeps
  · exact hcoincides

/-! ## Validation -/

variable [Sha256 D]

/-- The scrubbed dump of a model call is the dump of the redacted call. -/
theorem scrubbed_modelCall (henabled : redactor.enabled = true) {call : ModelCallEvent F}
    (h : redactor.SparesCall call)
    (reassembles : StreamReassembles (call.stream.map redactor.stream)
      (redactor.response call.response)) :
    redactor.scrubbed (.modelCall call) =
      (Event.modelCall (D := D) (redactor.modelCall call reassembles)).dumpAll.canon
        lessCodePoints := by
  have hwalk := walk_modelCall henabled h reassembles
  have hfields : redactor.walkFields (dictionary (Event.modelCall (D := D) call).fields) =
      dictionary (Event.modelCall (D := D) (redactor.modelCall call reassembles)).fields := by
    have hcanon := redactor.walk_canon_comm (record (Event.modelCall (D := D) call).fields)
    rw [hwalk, record_canon, record_canon] at hcanon
    exact Json.obj.inj hcanon
  have hdata : redactor.data (.modelCall call) =
      dictionary (Event.modelCall (D := D) call).fields := by
    rw [data]
    exact if_neg Bool.false_ne_true
  rw [scrubbed, hdata, hfields, assign_dictionary, ← record_canon]
  rfl

/-- What was validated of a model call is a model call. -/
theorem modelCall_of_scrubbed {call : ModelCallEvent F} {valid : Event F D}
    (h : valid.dumpAll.canon lessCodePoints = redactor.scrubbed (.modelCall call)) :
    ∃ stored, valid = .modelCall stored := by
  have hhash := lastField_recorded h "messages_hash" (by decide)
  have hcall : lastField "messages_hash" (Event.modelCall (D := D) call).fields =
      some (.str call.messagesHash) := rfl
  rw [show redactor.readsSecret (Event.modelCall (D := D) call) = false from rfl,
    if_neg Bool.false_ne_true, List.append_nil, hcall, Option.map_some] at hhash
  cases valid with
  | modelCall stored => exact ⟨stored, rfl⟩
  | toolCall _ | environment _ | fsRead _ | fsWrite _ | outcome _ | intervention _ => cases hhash

/-- The event that the hook is given: the redacted event, or the event where redaction is off. -/
def Hands (redactor : Redactor F D) (event given : Event F D) : Prop :=
  if redactor.enabled = true then given.dumpAll.canon lessCodePoints = redactor.scrubbed event
  else given = event

/-- The text of the response is redacted as a text, or there is a hook and it gives back a model
call with the redacted text. -/
def HookKeeps (redactor : Redactor F D) (call : ModelCallEvent F) : Prop :=
  match redactor.beforeRecord with
  | none => redactor.enabled = true →
      redactor.textAt "text" call.response.text = redactor.text call.response.text
  | some hook => ∀ given, redactor.Hands (.modelCall call) given →
      ∃ stored : ModelCallEvent F, hook given = some (.modelCall stored) ∧
        stored.response.text = redactor.text call.response.text

/-- Without a hook the given event is returned, with one what the hook makes of it. -/
theorem hookKeeps_iff {call : ModelCallEvent F} (given : ModelCallEvent F)
    (hgiven : ∀ event, redactor.Hands (.modelCall call) event ↔ event = .modelCall given)
    (htext : redactor.enabled = true →
      given.response.text = redactor.textAt "text" call.response.text)
    (hoff : redactor.enabled = false → given.response.text = redactor.text call.response.text) :
    redactor.HookKeeps call ↔ ∃ stored : ModelCallEvent F,
      redactor.hooked (.modelCall given) = some (.modelCall stored) ∧
        stored.response.text = redactor.text call.response.text := by
  rw [HookKeeps, hooked]
  cases redactor.beforeRecord with
  | some hook =>
    simp only [hgiven, forall_eq]
  | none =>
    simp only [Option.some.injEq, Event.modelCall.injEq, exists_eq_left']
    cases henabled : redactor.enabled with
    | true => rw [htext henabled, imp_iff_right rfl]
    | false => simp [hoff henabled]

end Redactor

/-- Events are determined by their dumps. -/
theorem event_eq_of_dumpAll [Sha256 D] [Pydantic F D] {event event' : Event F D}
    (h : event.dumpAll.canon lessCodePoints = event'.dumpAll.canon lessCodePoints) :
    event = event' := by
  have hvalid := Pydantic.validate_dumpAll event
  rw [h, Pydantic.validate_dumpAll] at hvalid
  exact (Option.some.inj hvalid).symm

variable [Sha256 D] [Pydantic F D]

/-- A streamed call whose response holds the key. -/
def streamedCall (chunks : List String)
    (reassembles : StreamReassembles
      (some ⟨chunks.mapIdx fun index text => ⟨index, text.toList, none⟩⟩)
      ({ text := "key sk-test-0123".toList, finishReason := "stop".toList } :
        ModelResponse Decimal)) : ModelCallEvent Decimal where
  eventMeta := ⟨half, none, none⟩
  callId := "c0".toList
  provider := "p".toList
  modelId := "m".toList
  modelVersion := none
  params := {}
  tools := none
  messages := [{ role := .assistant, content := "go".toList }]
  messagesHash := "00".toList
  response := { text := "key sk-test-0123".toList, finishReason := "stop".toList }
  stream := some ⟨chunks.mapIdx fun index text => ⟨index, text.toList, none⟩⟩
  reassembles := reassembles

end Tracewake.Recording
