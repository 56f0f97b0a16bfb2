import Mathlib.Data.Finset.Sort
import Tracewake.Alignment.Similarity
import Tracewake.Budgets.Bisection
import Tracewake.Profiles.TokenShares

/-!
# The comparison report

The data that the report of two runs carries. Everything long lives in one table of blocks,
keyed by content, and the texts of the blocks are clipped to one common limit until the
serialized data is within the budget. The page template around the data is left out.
-/

namespace Tracewake.Reports

open JsonText Recording Tracewake.Alignment
open Tracewake.Localization (Lowercase Reliability Confidence localize)

/-! ## Serialization -/

/-- A number in the data of a report: the ratio of two lengths can be infinite. -/
inductive Figure (F : Type) where
  | number (n : Number F)
  | infinity

/-- The data of a report. -/
abbrev Data (F : Type) := Json (Figure F)

variable {F D : Type}

/-- An object whose fields stand in the order in which they were assigned. -/
def object (fields : List (String × Data F)) : Data F :=
  .obj (fields.map fun field => (field.1.toList, field.2))

/-- `None`, or a value. -/
def orNull {α : Type} (data : α → Data F) : Option α → Data F
  | none => .null
  | some value => data value

def whole (n : ℤ) : Data F := .num (.number (.int n))

def natural (n : ℕ) : Data F := whole n

def real (x : F) : Data F := .num (.number (.float x))

/-- How `json.dumps` writes a figure. -/
def Figure.dumps [Python F] : Figure F → Text
  | .number n => n.dumps
  | .infinity => "Infinity".toList

/-- `json.dumps` with `ensure_ascii=False` and `separators=(",", ":")`. -/
def reportStyle [Python F] : Style (Figure F) where
  escape := (dumps : Style (Number F)).escape
  number := Figure.dumps

/-- `_serialize`. -/
def serialize [Python F] (payload : Data F) : Text :=
  payload.print reportStyle

/-- One character of the `replace` of `render`. -/
def escapeAngle (c : Char) : Text :=
  if c = '<' then "\\u003c".toList else [c]

/-- The data as `render` embeds it in the page. -/
def embedded [Python F] (payload : Data F) : List UInt8 :=
  Utf8.encode ((serialize payload).flatMap escapeAngle)

/-! ## Texts of arguments and results -/

/-- A new line with its indent. -/
def newline (level : ℕ) : Text := '\n' :: List.replicate (2 * level) ' '

section Indented

variable {N : Type}

mutual

/-- `json.dumps` with `indent=2`. -/
def indented (style : Style N) (level : ℕ) : Json N → Text
  | .arr (v :: rest) =>
    '[' :: (newline (level + 1) ++ indented style (level + 1) v ++ indentedItems style level rest)
  | .obj ((k, v) :: rest) =>
    '{' :: (newline (level + 1) ++ quote style.escape k ++ ':' :: ' ' ::
      indented style (level + 1) v ++ indentedFields style level rest)
  | v => v.print style

def indentedItems (style : Style N) (level : ℕ) : List (Json N) → Text
  | [] => newline level ++ [']']
  | v :: rest =>
    ',' :: (newline (level + 1) ++ indented style (level + 1) v ++ indentedItems style level rest)

def indentedFields (style : Style N) (level : ℕ) : List (Text × Json N) → Text
  | [] => newline level ++ ['}']
  | (k, v) :: rest =>
    ',' :: (newline (level + 1) ++ quote style.escape k ++ ':' :: ' ' ::
      indented style (level + 1) v ++ indentedFields style level rest)

end

end Indented

/-- The second byte can follow the first in a character of three or four bytes. -/
def follows (a b : ℕ) : Bool :=
  if a = 0xe0 then 0xa0 ≤ b && b < 0xc0
  else if a = 0xed then 0x80 ≤ b && b < 0xa0
  else if a = 0xf0 then 0x90 ≤ b && b < 0xc0
  else if a = 0xf4 then 0x80 ≤ b && b < 0x90
  else 0x80 ≤ b && b < 0xc0

/-- How many bytes at the front begin a character that they do not complete. -/
def brokenLength : List UInt8 → ℕ
  | a :: b :: rest =>
    let a := a.toNat
    if 0xe0 ≤ a ∧ a < 0xf5 ∧ follows a b.toNat = true then
      match rest with
      | c :: _ => if 0xf0 ≤ a ∧ 0x80 ≤ c.toNat ∧ c.toNat < 0xc0 then 3 else 2
      | [] => 2
    else 1
  | _ => 1

/-- `bytes.decode("utf-8", errors="replace")`, where the number bounds the rounds. -/
def decodeReplacing : ℕ → List UInt8 → Text
  | 0, _ => []
  | _, [] => []
  | n + 1, bytes =>
    match Utf8.decodeChar bytes with
    | some (c, rest) => c :: decodeReplacing n rest
    | none => Results.replacementChar :: decodeReplacing n (bytes.drop (brokenLength bytes))

/-! ## `_Blocks` -/

/-- The entry of a block in `meta`. -/
structure BlockMeta where
  kind : Text
  provenance : Text
  chars : ℕ
  deriving DecidableEq

/-- `_Blocks`. The lists of texts and of their entries have one length. -/
structure Blocks where
  texts : List Text
  metas : List BlockMeta
  index : Text × Text × Text → Option ℕ
  aligned : metas.length = texts.length

/-- Without blocks there is no record of one. -/
theorem Blocks.empty_aligned : ([] : List BlockMeta).length = ([] : List Text).length := rfl

/-- `_Blocks()`. -/
def Blocks.empty : Blocks where
  texts := []
  metas := []
  index _ := none
  aligned := Blocks.empty_aligned

/-- A new block comes with its record. -/
theorem Blocks.add_aligned (blocks : Blocks) (text : Text) (info : BlockMeta) :
    (blocks.metas ++ [info]).length = (blocks.texts ++ [text]).length := by
  rw [List.length_append, List.length_append, blocks.aligned]
  rfl

/-- `_Blocks.add`. -/
def Blocks.add (text kind provenance : Text) : StateM Blocks ℕ := fun blocks =>
  let key := (kind, provenance, text)
  match blocks.index key with
  | some found => (found, blocks)
  | none =>
    let index := blocks.texts.length
    (index, {
      texts := blocks.texts ++ [text]
      metas := blocks.metas ++ [⟨kind, provenance, text.length⟩]
      index := Function.update blocks.index key (some index)
      aligned := blocks.add_aligned text ⟨kind, provenance, text.length⟩ })

/-! ## `_fit_budget` -/

/-- A block of the payload. -/
structure Block where
  info : BlockMeta
  text : Text
  clipped : Bool
  deriving DecidableEq

/-- `truncation`. -/
structure Truncation where
  blocks : ℕ
  chars : ℕ
  limit : Option ℕ
  deriving DecidableEq

/-- The payload before its texts are clipped. -/
structure Draft (F : Type) where
  fields : List (String × Data F)
  blocks : Blocks

/-- The payload. -/
structure Payload (F : Type) where
  fields : List (String × Data F)
  blocks : List Block
  truncation : Truncation

def Block.data (block : Block) : Data F :=
  object [("kind", .str block.info.kind), ("provenance", .str block.info.provenance),
    ("chars", natural block.info.chars), ("text", .str block.text),
    ("clipped", .bool block.clipped)]

def Truncation.data (truncation : Truncation) : Data F :=
  object [("blocks", natural truncation.blocks), ("chars", natural truncation.chars),
    ("limit", orNull natural truncation.limit)]

/-- The payload as a dictionary. -/
def Payload.data (payload : Payload F) : Data F :=
  object (payload.fields ++ [("blocks", .arr (payload.blocks.map Block.data)),
    ("truncation", payload.truncation.data)])

/-- The loop of `apply`: the blocks, how many of them are clipped, and how many characters
are dropped. -/
def clipBlocks (limit : Option ℕ) : List (BlockMeta × Text) → List Block × ℕ × ℕ
  | [] => ([], 0, 0)
  | (info, text) :: rest =>
    let (blocks, clipped, dropped) := clipBlocks limit rest
    match limit with
    | none => (⟨info, text, false⟩ :: blocks, clipped, dropped)
    | some limit =>
      if text.length ≤ limit then (⟨info, text, false⟩ :: blocks, clipped, dropped)
      else (⟨info, text.take limit, true⟩ :: blocks, clipped + 1, dropped + (text.length - limit))

/-- What `apply` makes of the payload. -/
def Draft.apply (draft : Draft F) (limit : Option ℕ) : Payload F :=
  let (blocks, clipped, dropped) := clipBlocks limit (draft.blocks.metas.zip draft.blocks.texts)
  ⟨draft.fields, blocks, ⟨clipped, dropped, limit⟩⟩

/-- The length of the longest text. -/
def Draft.longest (draft : Draft F) : ℕ :=
  (draft.blocks.texts.map List.length).foldr max 0

/-- What `build_payload` raises. -/
inductive Failure where
  /-- `the ... run's steps do not match the ones the diff aligned`. -/
  | stepsDiffer (side : Text) (traces steps : ℕ)
  | localization (failure : Localization.Failure)
  | proportion (error : Profiles.ProportionError)
  /-- `cannot fit the comparison into ... bytes even with every context block dropped`. -/
  | cannotFit (budget : ℤ)
  deriving DecidableEq

variable [Python F]

/-- The size that `apply` returns. -/
def Draft.measure (draft : Draft F) (limit : Option ℕ) : ℕ :=
  (Utf8.encode (serialize (draft.apply limit).data)).length

/-- `_fit_budget`. -/
def fitBudget (draft : Draft F) (budget : ℤ) : Except Failure (Payload F) :=
  if draft.measure none ≤ budget then .ok (draft.apply none)
  else
    let best := Budgets.bisect (fun limit => draft.measure (some limit) ≤ budget) 0 draft.longest 0
    if draft.measure (some best) > budget then .error (.cannotFit budget)
    else .ok (draft.apply (some best))

/-! ## Runs -/

/-- `round(x, 4)`, `(x + 1.0) / 2.0` and `x > 4.0`. -/
class ScoreFloats (F : Type) where
  round : F → F
  similarity : F → F
  aboveFour : F → Bool

/-- `DiffResult`. Its columns have indices of steps; `lengthRatio` is missing when it is
infinite, and `scores` when the matrix is empty. -/
structure DiffResult (F : Type) where
  goodSteps : List (Step F)
  badSteps : List (Step F)
  alignment : List (Option (Fin goodSteps.length) × Option (Fin badSteps.length))
  score : F
  divergence : Option ℕ
  lengthRatio : Option F
  embeddingModel : Option Text
  embeddingRevision : Option Text
  scores : Option (Fin goodSteps.length → Fin badSteps.length → F)

/-- `excluded_by_length`. -/
def DiffResult.excludedByLength [ScoreFloats F] (result : DiffResult F) : Bool :=
  match result.lengthRatio with
  | some ratio => ScoreFloats.aboveFour ratio
  | none => true

/-- `target_agree`. -/
def targetAgree (a b : Step F) : Bool :=
  decide (a.names = b.names ∧ a.targets = b.targets)

/-- A column of the alignment table. -/
def columnData [ScoreFloats F] (result : DiffResult F)
    (column : Option (Fin result.goodSteps.length) × Option (Fin result.badSteps.length)) :
    Data F :=
  let agree := match column with
    | (some i, some j) => targetAgree (result.goodSteps.get i) (result.badSteps.get j)
    | _ => false
  let similarity := match column, result.scores with
    | (some i, some j), some scores => some (ScoreFloats.similarity (scores i j))
    | _, _ => none
  object [("g", orNull (fun i => natural i.val) column.1),
    ("b", orNull (fun j => natural j.val) column.2), ("agree", .bool agree),
    ("similarity", orNull (fun s => real (ScoreFloats.round s)) similarity)]

variable [Sha256 D]

/-- `BlobSource`: the contents of the blobs that it has. -/
structure BlobSource (D : Type) where
  get : D → Option (List UInt8)

/-- `_RESULT_PREVIEW`. -/
def resultPreview : ℕ := 20000

/-- Add the beginning of a tool's result to the blocks. -/
def addPreview (blobs : Option (BlobSource D)) (tool : ToolCallEvent F D) :
    StateM Blocks (Option ℕ) :=
  match blobs.bind fun blobs => blobs.get tool.result.digest with
  | some content => do
    let raw := content.take resultPreview
    let index ← Blocks.add (decodeReplacing raw.length raw) "tool_result".toList []
    return some index
  | none => return none

/-- The entry of a tool call. -/
def toolData (tool : ToolCallEvent F D) (preview : Option ℕ) : Data F :=
  object [("name", .str tool.name), ("target", .str (targetOf tool.args)),
    ("args", .str (indented ⟨escapeChar Results.isPrintable, Number.dumps⟩ 0 tool.args.value)),
    ("status", .str tool.status.text), ("error", orNull .str tool.error),
    ("result", orNull natural preview), ("result_size", natural tool.result.size),
    ("duration_ms", orNull real tool.eventMeta.durationMs)]

/-- Add the messages of a call to the blocks. -/
def addContext (call : Option (ModelCallEvent F)) : StateM Blocks (List ℕ) :=
  match call with
  | some call => call.messages.mapM fun message =>
      Blocks.add message.content message.role.text
        (Profiles.orElse message.provenance Profiles.untagged)
  | none => return []

/-- Add the reasoning of a step to the blocks. -/
def addReasoning (reasoning : Text) : StateM Blocks (Option ℕ) :=
  if reasoning ≠ [] then do
    let index ← Blocks.add reasoning "reasoning".toList []
    return some index
  else return none

/-- The numbers of input and output tokens. -/
def usageData (input output : ℤ) : Data F :=
  object [("input_tokens", whole input), ("output_tokens", whole output)]

/-- The ids of the model calls, in the order of the dictionary. -/
def callIds (events : List (StoredEvent F D)) : List Text :=
  firsts ((Profiles.modelCalls events).map fun call => call.callId)

/-- `turns.get`. -/
def turnOf (events : List (StoredEvent F D)) (id : Text) : Option ℕ :=
  (callIds events).idxOf? id

/-- `sorted` of a set. -/
def sorted (texts : Finset Text) : List Text := texts.sort

/-- One round of `_step_details`, with the files that the steps before have changed. -/
def stepDetail (events : List (StoredEvent F D)) (blobs : Option (BlobSource D)) (index : ℕ)
    (seen : Finset Text) (trace : StepTrace F D) : StateM Blocks (Data F) := do
  let step := trace.step
  let call := lastOf events modelEntry trace.parentCallId
  let context ← addContext call
  let usage := (call.map fun call => call.response.usage).getD {}
  let tools ← trace.tools.mapM fun tool => do
    let preview ← addPreview blobs tool
    return toolData tool preview
  let paths := step.changedFiles.image Prod.fst
  let reasoning ← addReasoning step.reasoning
  return object [("i", natural index),
    ("turn", orNull natural (turnOf events trace.parentCallId)),
    ("name", .str step.name), ("target", .str step.target),
    ("targets", .arr ((sorted step.targets).map .str)), ("batch", .bool (step.batchNames ≠ [])),
    ("reasoning", orNull natural reasoning),
    ("context", .arr (context.map natural)),
    ("usage", usageData usage.inputTokens usage.outputTokens), ("tools", .arr tools),
    ("wrote", .arr ((sorted (paths \ seen)).map .str)), ("changed", natural paths.card)]

/-- The loop of `_step_details`, from an index on. -/
def stepDetailsFrom (events : List (StoredEvent F D)) (blobs : Option (BlobSource D)) :
    ℕ → Finset Text → List (StepTrace F D) → StateM Blocks (List (Data F))
  | _, _, [] => return []
  | index, seen, trace :: rest => do
    let detail ← stepDetail events blobs index seen trace
    let details ← stepDetailsFrom events blobs (index + 1)
      (trace.step.changedFiles.image Prod.fst) rest
    return detail :: details

/-- `_step_details`. -/
def stepDetails (traces : List (StepTrace F D)) (events : List (StoredEvent F D))
    (blobs : Option (BlobSource D)) : StateM Blocks (List (Data F)) :=
  stepDetailsFrom events blobs 0 ∅ traces

/-! ## `_run_summary` -/

/-- One round of the loop of `_spend`. -/
def addSpend : List (Text × ℤ × ℤ) → Profiles.TokenShare → List (Text × ℤ × ℤ)
  | [], share => [(share.leaf, share.inputTokens, share.outputTokens)]
  | (leaf, input, output) :: rest, share =>
    if leaf = share.leaf then
      (leaf, input + share.inputTokens, output + share.outputTokens) :: rest
    else (leaf, input, output) :: addSpend rest share

/-- `_spend`. -/
def spend (header : RunHeader F) (events : List (StoredEvent F D)) :
    Except Profiles.ProportionError (List (Data F)) := do
  let shares ← Profiles.attributeTokens header events
  let totals := shares.foldl addSpend []
  let rows := totals.mergeSort fun a b => -(a.2.1 + a.2.2) ≤ -(b.2.1 + b.2.2)
  return rows.map fun row => object [("leaf", .str row.1), ("input_tokens", whole row.2.1),
    ("output_tokens", whole row.2.2)]

/-- The status of a run in its header. -/
def statusText : RunStatus → Text
  | .running => "running".toList
  | .ok => "ok".toList
  | .error => "error".toList

/-- The outcome that an event is. -/
def outcomeOf (stored : StoredEvent F D) : Option (OutcomeEvent F D) :=
  match stored.event with
  | .outcome event => some event
  | _ => none

def outcomeData (outcome : OutcomeEvent F D) : Data F :=
  object [("status", .str outcome.status.text), ("coverage", orNull .bool outcome.coverage),
    ("resolve", orNull .bool outcome.resolve), ("test_summary", orNull .str outcome.testSummary),
    ("error", orNull .str outcome.error)]

/-- `_run_summary`. -/
def runSummary (header : RunHeader F) (events : List (StoredEvent F D)) (steps : ℕ)
    (store : Text) : Except Profiles.ProportionError (Data F) := do
  let calls := Profiles.modelCalls events
  let spent ← spend header events
  return object [("run_id", .str header.runId), ("name", .str header.name), ("store", .str store),
    ("has_command", .bool header.command.isSome), ("task_id", orNull .str header.taskId),
    ("status", .str (statusText header.status)),
    ("models", .arr (header.models.map fun model => .str model.modelId)),
    ("started_at", real header.startedAt), ("finished_at", orNull real header.finishedAt),
    ("events", natural events.length), ("model_calls", natural calls.length),
    ("steps", natural steps),
    ("usage", usageData (calls.map fun call => call.response.usage.inputTokens).sum
      (calls.map fun call => call.response.usage.outputTokens).sum),
    ("spend", .arr spent), ("outcome", orNull outcomeData (events.findSome? outcomeOf))]

/-! ## `build_payload` -/

variable [FloatValue F]

/-- `_check_same_steps`. -/
def checkSameSteps (traces : List (StepTrace F D)) (steps : List (Step F)) (side : String) :
    Except Failure Unit :=
  if traces.length = steps.length ∧
      ((traces.zip steps).all fun pair => pair.1.step.equal pair.2) = true then .ok ()
  else .error (.stepsDiffer side.toList traces.length steps.length)

def reliabilityText : Reliability → Text
  | .commitShort => "commit-short".toList
  | .silentShort => "silent-short".toList
  | .commitLongSingle => "commit-long-single".toList
  | .commitLongMany => "commit-long-many".toList
  | .silentLong => "silent-long".toList

def confidenceText : Confidence → Text
  | .high => "high".toList
  | .moderate => "moderate".toList
  | .low => "low".toList
  | .veryLow => "very low".toList

variable [Lowercase]

/-- `localize(steps) if steps else (None, None)`. -/
def localized (steps : List (Step F)) :
    Except Localization.Failure (Option (ℕ × Reliability)) :=
  if steps = [] then .ok none else (localize steps).map some

/-- The arguments of `build_payload` without the budget. -/
structure Comparison (F D : Type) [Python F] where
  goodHeader : RunHeader F
  goodEvents : List (StoredEvent F D)
  badHeader : RunHeader F
  badEvents : List (StoredEvent F D)
  result : DiffResult F
  blobs : Option (BlobSource D) := none
  blobsB : Option (BlobSource D) := none
  storePath : Text := []
  storePathB : Option Text := none

variable [ScoreFloats F]

/-- `build_payload`, up to the clipping of the blocks. -/
def prepare (runs : Comparison F D) : Except Failure (Draft F) := do
  let result := runs.result
  let goodTraces := extractTraces false runs.goodEvents
  let badTraces := extractTraces false runs.badEvents
  checkSameSteps goodTraces result.goodSteps "passing"
  checkSameSteps badTraces result.badSteps "failing"
  let good := (stepDetails goodTraces runs.goodEvents runs.blobs).run Blocks.empty
  let bad := (stepDetails badTraces runs.badEvents (runs.blobsB.or runs.blobs)).run good.2
  let storeB := runs.storePathB.getD runs.storePath
  let found ← (localized result.badSteps).mapError Failure.localization
  let goodSummary ← (runSummary runs.goodHeader runs.goodEvents result.goodSteps.length
    runs.storePath).mapError Failure.proportion
  let badSummary ← (runSummary runs.badHeader runs.badEvents result.badSteps.length
    storeB).mapError Failure.proportion
  return ⟨[("good", goodSummary), ("bad", badSummary),
    ("divergence", orNull (fun found => natural found.1) found),
    ("reliability", orNull (fun found => .str (reliabilityText found.2)) found),
    ("confidence", orNull (fun found => .str (confidenceText found.2.band)) found),
    ("alignment_divergence", orNull natural result.divergence),
    ("score", real (ScoreFloats.round result.score)),
    ("length_ratio", match result.lengthRatio with
      | some ratio => real (ScoreFloats.round ratio)
      | none => .num .infinity),
    ("excluded_by_length", .bool result.excludedByLength),
    ("embedding", object [("model", orNull .str result.embeddingModel),
      ("revision", orNull .str result.embeddingRevision)]),
    ("store", .str runs.storePath), ("store_b", .str storeB),
    ("columns", .arr (result.alignment.map (columnData result))),
    ("steps", object [("good", .arr good.1), ("bad", .arr bad.1)])], bad.2⟩

/-- `build_payload`. -/
def buildPayload (runs : Comparison F D) (budget : ℤ) : Except Failure (Payload F) := do
  let draft ← prepare runs
  fitBudget draft budget

end Tracewake.Reports
