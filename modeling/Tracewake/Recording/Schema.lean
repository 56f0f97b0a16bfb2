import Tracewake.Recording.Values

/-!
# Events of a run

The record types of a recording and their dumps. A digest is an element of a type `D`
that knows its hexadecimal spelling, so a text that is no digest cannot be put in a blob
reference, and a model call holds the proof that its stream reassembles.
-/

namespace Tracewake.Recording

open JsonText
open Results (lessCodePoints)

/-- SHA-256 digests: `D` is the texts that match `DIGEST_PATTERN`. -/
class Sha256 (D : Type) where
  hex : D → Text
  ofHex : Text → Option D
  hash : List UInt8 → D
  ofHex_eq : ∀ text d, ofHex text = some d ↔ hex d = text

variable {F D : Type}

/-- No two byte strings of the list have the same digest. -/
def CollisionFree (D : Type) [Sha256 D] (data : List (List UInt8)) : Prop :=
  ∀ a ∈ data, ∀ b ∈ data, (Sha256.hash a : D) = Sha256.hash b → a = b

/-- `sha256_hex`. -/
def sha256Hex (D : Type) [Sha256 D] (data : List UInt8) : Text :=
  Sha256.hex (Sha256.hash data : D)

/-- `BlobRef`. -/
structure BlobRef (D : Type) where
  digest : D
  size : ℕ
  deriving DecidableEq

/-- `EventMeta`. -/
structure EventMeta (F : Type) where
  recordedAt : F
  durationMs : Option F
  chunkOffsetsMs : Option (List F)
  deriving DecidableEq

/-- `Role`. -/
inductive Role where
  | system | user | assistant | tool
  deriving DecidableEq

/-- The status of a tool call and of an outcome. -/
inductive Status where
  | ok | error
  deriving DecidableEq

/-- `Message`. -/
structure Message where
  role : Role
  content : Text
  toolCallId : Option Text := none
  provenance : Option Text := none
  deriving DecidableEq

/-- `DecodeParams`. -/
structure DecodeParams (F : Type) where
  temperature : Option F := none
  topP : Option F := none
  maxTokens : Option ℤ := none
  stop : Option (List Text) := none
  seed : Option ℤ := none
  deriving DecidableEq

/-- `ModelIdentity`. -/
structure ModelIdentity where
  provider : Text
  modelId : Text
  modelVersion : Option Text
  deriving DecidableEq

/-- `ToolCallRequest`. -/
structure ToolCallRequest (F : Type) where
  id : Text
  name : Text
  args : CanonicalMapping F
  batchIndex : ℤ

/-- `Usage`. -/
structure Usage where
  inputTokens : ℤ := 0
  outputTokens : ℤ := 0
  cachedInputTokens : ℤ := 0
  deriving DecidableEq

/-- `ModelResponse`. -/
structure ModelResponse (F : Type) where
  text : Text := []
  toolCalls : List (ToolCallRequest F) := []
  finishReason : Text
  usage : Usage := {}
  logprobs : Option (List (CanonicalValue F)) := none

/-- `StreamChunk`. -/
structure StreamChunk (F : Type) where
  index : ℤ
  textDelta : Text := []
  toolCallDelta : Option (CanonicalMapping F) := none

/-- `StreamRecord`. -/
structure StreamRecord (F : Type) where
  chunks : List (StreamChunk F)

/-- `ToolOutcome`. -/
structure ToolOutcome where
  content : Text
  status : Status := .ok
  error : Option Text := none
  deriving DecidableEq

/-- `EnvironmentSource`. -/
inductive EnvironmentSource where
  | clock | monotonic | perfCounter | random | uuid | env
  deriving DecidableEq

/-- What a read of the file system asked for. -/
inductive ReadKind where
  | content | listing | exists
  deriving DecidableEq

/-- The fields that all events share. -/
structure EventBase (F : Type) where
  parentCallId : Option Text := none
  toolCallId : Option Text := none
  eventMeta : EventMeta F

/-- The ids in the tool call deltas of chunks. -/
def deltaIds [Python F] (chunks : List (StreamChunk F)) : List Text :=
  chunks.filterMap fun chunk => chunk.toolCallDelta.bind fun delta =>
    (delta.get? "id".toList).map Python.str

/-- `_stream_reassembles`: `sorted` gives one list for two lists that are permutations. -/
def StreamReassembles [Python F] (stream : Option (StreamRecord F))
    (response : ModelResponse F) : Prop :=
  ∀ record ∈ stream, (record.chunks.flatMap fun chunk => chunk.textDelta) = response.text ∧
    (deltaIds record.chunks ≠ [] →
      (deltaIds record.chunks).Perm (response.toolCalls.map fun call => call.id))

/-- A response that was not streamed has nothing to agree with. -/
theorem streamReassembles_none [Python F] (response : ModelResponse F) :
    StreamReassembles none response := by
  simp [StreamReassembles]

instance [Python F] (stream : Option (StreamRecord F)) (response : ModelResponse F) :
    Decidable (StreamReassembles stream response) :=
  inferInstanceAs (Decidable (∀ record ∈ stream, _))

/-- `ModelCallEvent`. -/
structure ModelCallEvent (F : Type) [Python F] extends EventBase F where
  callId : Text
  provider : Text
  modelId : Text
  modelVersion : Option Text
  params : DecodeParams F
  tools : Option (List Text)
  messages : List Message
  messagesHash : Text
  response : ModelResponse F
  stream : Option (StreamRecord F)
  reassembles : StreamReassembles stream response

/-- `ToolCallEvent`, whose parent and tool call are always known. -/
structure ToolCallEvent (F D : Type) where
  parentCallId : Text
  toolCallId : Text
  batchIndex : ℤ
  name : Text
  args : CanonicalMapping F
  argsHash : Text
  result : BlobRef D
  status : Status
  error : Option Text
  eventMeta : EventMeta F

/-- `EnvironmentEvent`. -/
structure EnvironmentEvent (F : Type) extends EventBase F where
  source : EnvironmentSource
  key : Option Text
  value : CanonicalValue F

/-- `FsReadEvent`. -/
structure FsReadEvent (F D : Type) extends EventBase F where
  path : Text
  kind : ReadKind
  found : Bool
  content : Option (BlobRef D)

/-- `FsWriteEvent`. -/
structure FsWriteEvent (F D : Type) extends EventBase F where
  path : Text
  content : BlobRef D

/-- `OutcomeEvent`. -/
structure OutcomeEvent (F D : Type) extends EventBase F where
  status : Status
  error : Option Text
  usage : Usage
  coverage : Option Bool
  resolve : Option Bool
  patch : Option (BlobRef D)
  testSummary : Option Text

/-- `InterventionEvent`. -/
structure InterventionEvent (F : Type) extends EventBase F where
  sourceRunId : Text
  dropTags : List Text
  fromTurn : ℤ

/-- `AnyEvent`. -/
inductive Event (F D : Type) [Python F] where
  | modelCall (event : ModelCallEvent F)
  | toolCall (event : ToolCallEvent F D)
  | environment (event : EnvironmentEvent F)
  | fsRead (event : FsReadEvent F D)
  | fsWrite (event : FsWriteEvent F D)
  | outcome (event : OutcomeEvent F D)
  | intervention (event : InterventionEvent F)

/-- `StoredEvent`. -/
structure StoredEvent (F D : Type) [Python F] where
  runId : Text
  seq : ℤ
  event : Event F D

end Tracewake.Recording
