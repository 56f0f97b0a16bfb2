import Tracewake.Cassettes.Cassette

/-!
# Header lines

The header of a cassette on one line, read by a strict validator. It has what is assumed of
`pydantic`, so that cassettes can be evaluated.
-/

namespace Tracewake.Cassettes

open JsonText Recording
open Results (lessCodePoints keyOrder)

variable {F D : Type}

/-- `RunStatus`. -/
def runStatusText : RunStatus → Text
  | .running => "running".toList
  | .ok => "ok".toList
  | .error => "error".toList

def runStatus? (value : Value F) : Option RunStatus :=
  named? [.running, .ok, .error] runStatusText value

/-- The status of a run loads as itself. -/
theorem runStatus_loads : Loads (runStatus? (F := F)) fun status => .str (runStatusText status) :=
  named_loads (by intro status; cases status <;> decide) (by decide)

/-- The identity of a model loads as itself. -/
theorem modelIdentity_loads : Loads (ModelIdentity.load (F := F)) ModelIdentity.dump := by
  refine ⟨fun identity => ?_, by simp [ModelIdentity.load, get?, Json.field]⟩
  simp [ModelIdentity.load, ModelIdentity.dump, get_record, text_loads.dumped,
    optional_loads text_loads]

variable [Sha256 D]

/-- The dump of a header. -/
def CassetteHeader.dump (header : CassetteHeader F D) : Value F :=
  record [("format_version", integer header.formatVersion),
    ("tracewake_version", .str header.tracewakeVersion),
    ("schema_version", integer header.schemaVersion), ("run_id", .str header.runId),
    ("name", .str header.name), ("recorded_at", float header.recordedAt),
    ("finished_at", optional float header.finishedAt),
    ("status", .str (runStatusText header.status)),
    ("models", list ModelIdentity.dump header.models),
    ("command", optional (list .str) header.command), ("redacted", .bool header.redacted),
    ("task_id", optional .str header.taskId), ("event_count", integer header.eventCount),
    ("digest", .str (Sha256.hex header.digest))]

def CassetteHeader.load (value : Value F) : Option (CassetteHeader F D) := do
  return {
    formatVersion := ← get? "format_version" integer? value
    tracewakeVersion := ← get? "tracewake_version" text? value
    schemaVersion := ← get? "schema_version" integer? value
    runId := ← get? "run_id" text? value
    name := ← get? "name" text? value
    recordedAt := ← get? "recorded_at" float? value
    finishedAt := ← get? "finished_at" (optional? float?) value
    status := ← get? "status" runStatus? value
    models := ← get? "models" (list? ModelIdentity.load) value
    command := ← get? "command" (optional? (list? text?)) value
    redacted := ← get? "redacted" bool? value
    taskId := ← get? "task_id" (optional? text?) value
    eventCount := ← get? "event_count" natural? value
    digest := ← get? "digest" digest? value }

/-- A cassette's header loads as itself, field by field. -/
theorem cassetteHeader_load (header : CassetteHeader F D) :
    CassetteHeader.load (header.dump.canon lessCodePoints) = some header := by
  simp [CassetteHeader.load, CassetteHeader.dump, get_record, integer_loads.dumped,
    text_loads.dumped, float_loads.dumped, optional_loads float_loads, runStatus_loads.dumped,
    (list_loads modelIdentity_loads).dumped, optional_loads (list_loads text_loads),
    bool_loads.dumped, optional_loads text_loads, natural_loads.dumped, digest_loads.dumped]

variable [Python F]

omit [Sha256 D] in
/-- A value on one line has no line feed and no carriage return. -/
theorem notMem_print (value : Value F) {c : Char} (hc : c = '\n' ∨ c = '\r') :
    c ∉ value.print dumps := by
  intro hmem
  have hbreak : Texts.isLineBreak c = true := by
    rcases hc with rfl | rfl <;> rfl
  obtain ⟨s, hs, hmem, hseparator⟩ := mem_print_of_isLineBreak _ hmem hbreak
  rcases hc with rfl | rfl <;> cases hseparator

/-- A header is read back from its line, which has the fields in the order of the class. -/
theorem read_headerLine (header : CassetteHeader F D) :
    (loads (header.dump.print dumps ++ ['\n'])).bind CassetteHeader.load = some header := by
  rw [loads, parse_print_space dumps_reads _ (fun _ _ => trivial)
    (show skip ['\n'] = [] from rfl) (by rintro c hc; cases hc; decide), Option.map_some,
    Option.bind_some, cassetteHeader_load]

/-- The strict header line. -/
@[reducible] def strictHeader : HeaderJson F D where
  write header := header.dump.print dumps
  read text := (loads text).bind CassetteHeader.load
  read_write := read_headerLine
  feed_notMem header := notMem_print header.dump (.inl rfl)
  return_notMem header := notMem_print header.dump (.inr rfl)

instance : HeaderJson Decimal HexDigest := strictHeader

end Tracewake.Cassettes
