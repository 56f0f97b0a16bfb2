import Tracewake.Recording.Redaction
import Tracewake.Recording.Strict

/-!
# The recorder

What is appended to the log of a run while its tool calls run at the same time. The threads
of a session append one event after the other, and the scope of a thread is the tool call
that it runs. Besides the state of the session the recorder keeps what the log does not say:
in which tool calls an event was made. A run is recorded, forked from another one, and
extended by any number of sessions.
-/

namespace Tracewake.Recording

open JsonText

variable {F D : Type} [Python F]

/-! ## Positions -/

/-- What the order of a log and its trace tree read of an event. -/
inductive Position where
  | modelCall (callId : Text) (parentCallId : Option Text)
  | toolCall (parentCallId toolCallId : Text) (batchIndex : ℤ)
  | other (parentCallId toolCallId : Option Text)
  deriving DecidableEq

/-- The position of an event. -/
def Event.position : Event F D → Position
  | .modelCall event => .modelCall event.callId event.parentCallId
  | .toolCall event => .toolCall event.parentCallId event.toolCallId event.batchIndex
  | .environment event => .other event.parentCallId event.toolCallId
  | .fsRead event => .other event.parentCallId event.toolCallId
  | .fsWrite event => .other event.parentCallId event.toolCallId
  | .outcome event => .other event.parentCallId event.toolCallId
  | .intervention event => .other event.parentCallId event.toolCallId

/-- The id of a model call. -/
def Position.callId : Position → Option Text
  | .modelCall callId _ => some callId
  | _ => none

/-- The parent and the id of a tool call. -/
def Position.toolId : Position → Option (Text × Text)
  | .toolCall parentCallId toolCallId _ => some (parentCallId, toolCallId)
  | _ => none

/-- The model call under which an event is. -/
def Position.parentCallId : Position → Option Text
  | .modelCall _ parentCallId => parentCallId
  | .toolCall parentCallId _ _ => some parentCallId
  | .other parentCallId _ => parentCallId

/-- The position of an event has its parent. -/
theorem Event.parentCallId_position (event : Event F D) :
    event.position.parentCallId = event.parentCallId := by
  cases event <;> rfl

/-! ## What is recorded -/

/-- A tool call that was begun. `Tools.call` makes it the scope of its thread, inside the
scopes that are there. -/
structure Execution (F : Type) [Python F] where
  parentCallId : Text
  request : ToolCallRequest F
  outer : List ℕ
  running : Bool := true

/-- An event of the log, the tool calls in which it was made, and the one that it ends. -/
structure Entry (F D : Type) [Python F] where
  stored : StoredEvent F D
  within : List ℕ
  ends : Option ℕ

/-- A run and the session that extends it. -/
structure Recorder (F D : Type) [Python F] where
  runId : Text
  redactor : Redactor F D
  entries : List (Entry F D) := []
  executions : List (Execution F) := []
  minted : List Text := []
  currentCallId : Option Text := none
  /-- The ids of the model calls that the matcher of the session holds. -/
  recorded : List Text := []
  /-- The ids of the streams that are not consumed. -/
  handles : List Text := []
  /-- The ids of the model calls that the session has answered. -/
  answered : List Text := []

/-- What the threads of a session do. An event is given without the fields that the session
fills in. -/
inductive Act (F D : Type) [Python F] where
  | session
  | serve (callId : Text)
  | create (scope : Option ℕ) (event : ModelCallEvent F)
  | stream (callId : Text)
  | finalize (scope : Option ℕ) (event : ModelCallEvent F)
  | call (scope : Option ℕ) (parentCallId : Text) (request : ToolCallRequest F)
  | finish (execution : ℕ) (outcome : ToolCallEvent F D)
  | leave (execution : ℕ)
  | envValue (scope : Option ℕ) (event : EnvironmentEvent F)
  | read (scope : Option ℕ) (event : FsReadEvent F D)
  | write (scope : Option ℕ) (event : FsWriteEvent F D)
  | outcome (scope : Option ℕ) (event : OutcomeEvent F D)
  | intervention (event : InterventionEvent F)

/-- `uuid4().hex`. -/
def Hex (id : Text) : Prop :=
  id.length = 32 ∧ ∀ c ∈ id, c ∈ "0123456789abcdef".toList

instance (id : Text) : Decidable (Hex id) :=
  @instDecidableAnd _ _ inferInstance (List.decidableBAll _ id)

namespace Recorder

variable (r : Recorder F D)

/-- The log of the run. -/
def log : List (StoredEvent F D) :=
  r.entries.map fun entry => entry.stored

/-- The ids of the model calls in the log. -/
def callIds : List Text :=
  r.log.filterMap fun stored => stored.event.position.callId

/-! ## Scopes -/

/-- The tool call that a thread runs. -/
def executionOf (scope : Option ℕ) : Option (Execution F) :=
  scope.bind fun k => r.executions[k]?

/-- A thread runs no tool call, or one that has not ended. -/
def isLive (scope : Option ℕ) : Bool :=
  scope.all fun k => r.executions[k]?.any fun execution => execution.running

/-- The tool calls in which a thread is. -/
def enclosing (scope : Option ℕ) : List ℕ :=
  match scope with
  | none => []
  | some k => k :: (r.executions[k]?.map fun execution => execution.outer).getD []

/-- `_scope_fields`. -/
def scopeFields (scope : Option ℕ) (eventMeta : EventMeta F) : EventBase F :=
  let parent := ((r.executionOf scope).map fun execution => execution.parentCallId).filter
    fun id => id ≠ []
  { parentCallId := parent.or r.currentCallId
    toolCallId := (r.executionOf scope).map fun execution => execution.request.id
    eventMeta }

/-- The fields of an environment event, whose parent is the current call. -/
def envFields (scope : Option ℕ) (eventMeta : EventMeta F) : EventBase F :=
  { parentCallId := r.currentCallId
    toolCallId := (r.executionOf scope).map fun execution => execution.request.id
    eventMeta }

/-! ## Steps -/

variable [Sha256 D]

/-- The event of a tool call that has an outcome. -/
def toolEvent (execution : Execution F) (outcome : ToolCallEvent F D) : ToolCallEvent F D :=
  let args := r.redactor.args execution.request.args
  { outcome with
    parentCallId := execution.parentCallId
    toolCallId := execution.request.id
    batchIndex := execution.request.batchIndex
    name := execution.request.name
    args := args
    argsHash := hashArgs D args }

/-- What is handed to `_append`, the tool calls it is made in, and the one that it ends. -/
def made : Act F D → Option (Event F D × List ℕ × Option ℕ)
  | .create scope event | .finalize scope event =>
    some (.modelCall { event with parentCallId := r.currentCallId, toolCallId := none },
      r.enclosing scope, none)
  | .finish k outcome => r.executions[k]?.map fun execution =>
    (.toolCall (r.toolEvent execution outcome), execution.outer, some k)
  | .envValue scope event =>
    some (.environment { event with toEventBase := r.envFields scope event.eventMeta },
      r.enclosing scope, none)
  | .read scope event =>
    some (.fsRead { event with toEventBase := r.scopeFields scope event.eventMeta },
      r.enclosing scope, none)
  | .write scope event =>
    some (.fsWrite { event with toEventBase := r.scopeFields scope event.eventMeta },
      r.enclosing scope, none)
  | .outcome scope event =>
    some (.outcome { event with parentCallId := r.currentCallId, toolCallId := none },
      r.enclosing scope, none)
  | .intervention event =>
    some (.intervention { event with parentCallId := none, toolCallId := none }, [], none)
  | _ => none

/-- The tool call `k` has ended. -/
def stop (k : ℕ) : List (Execution F) :=
  r.executions.modify k fun execution => { execution with running := false }

/-- What may happen. A minted id is new, a call is served by the matcher, a stream is
consumed once, and a thread is in a tool call that has not ended. -/
def allows : Act F D → Bool
  | .session => true
  | .serve callId => callId ∈ r.recorded
  | .create scope event => r.isLive scope && event.callId ∉ r.minted && decide (Hex event.callId)
  | .stream callId => callId ∉ r.minted && decide (Hex callId)
  | .finalize scope event => r.isLive scope && event.callId ∈ r.handles
  | .call scope _ _ => r.isLive scope
  | .finish k _ => r.isLive (some k)
  | .leave k => r.isLive (some k)
  | .envValue scope _ => r.isLive scope
  | .read scope _ => r.isLive scope
  | .write scope _ => r.isLive scope
  | .outcome scope _ => r.isLive scope
  | .intervention _ => r.entries.isEmpty && r.executions.isEmpty

/-- The session after a step. -/
def next : Act F D → Recorder F D
  | .session =>
    { r with
      executions := r.executions.map fun execution => { execution with running := false }
      currentCallId := none, recorded := r.callIds, handles := [], answered := [] }
  | .serve callId => { r with currentCallId := some callId, answered := callId :: r.answered }
  | .create _ event =>
    { r with
      minted := event.callId :: r.minted, currentCallId := some event.callId
      answered := event.callId :: r.answered }
  | .stream callId =>
    { r with
      minted := callId :: r.minted, handles := callId :: r.handles
      answered := callId :: r.answered }
  | .finalize _ event =>
    { r with currentCallId := some event.callId, handles := r.handles.erase event.callId }
  | .call scope parentCallId request =>
    { r with executions := r.executions ++ [⟨parentCallId, request, r.enclosing scope, true⟩] }
  | .finish k _ => { r with executions := r.stop k }
  | .leave k => { r with executions := r.stop k }
  | _ => r

/-- The log with one more entry. -/
def push (event : Event F D) (within : List ℕ) (ends : Option ℕ) : Recorder F D :=
  { r with entries := r.entries ++ [⟨⟨r.runId, r.entries.length, event⟩, within, ends⟩] }

variable [Pydantic F D]

/-- One step: `_append` redacts the event, and the hook may drop it. -/
def step (act : Act F D) : Option (Recorder F D) :=
  if r.allows act then
    match r.made act with
    | none => some (r.next act)
    | some (event, within, ends) =>
      match r.redactor.event event with
      | none => none
      | some none => some (r.next act)
      | some (some event) => some ((r.next act).push event within ends)
  else none

/-- Some steps in turn. -/
def run (r : Recorder F D) : List (Act F D) → Option (Recorder F D)
  | [] => some r
  | act :: rest => (r.step act).bind fun s => s.run rest

/-- Every one of some steps meets a condition when it is taken. -/
def Meets (condition : Recorder F D → Act F D → Prop) (r : Recorder F D) :
    List (Act F D) → Prop
  | [] => True
  | act :: rest => condition r act ∧ ∀ s, r.step act = some s → s.Meets condition rest

/-- A run that is recorded from its beginning. -/
def started (runId : Text) (redactor : Redactor F D) : Recorder F D :=
  { runId, redactor }

/-- A run that is forked from another one, whose model calls have the given ids. -/
def forked (runId : Text) (redactor : Redactor F D) (source : List Text) : Recorder F D :=
  { runId, redactor, minted := source, recorded := source }

/-- The beginning of a run. -/
def Begun (r : Recorder F D) : Prop :=
  ∃ runId redactor, r = started runId redactor ∨
    ∃ source, (∀ id ∈ source, Hex id) ∧ r = forked runId redactor source

end Recorder

/-! ## What a step does -/

namespace Recorder

variable {r s : Recorder F D}

section Steps

/-- Only the identifier of the next call changes. -/
@[simp] theorem next_entries (act : Act F D) : (r.next act).entries = r.entries := by
  cases act <;> rfl

/-- The log is what has been pushed. -/
theorem log_next (act : Act F D) : (r.next act).log = r.log := by
  rw [log, next_entries, log]

/-- The calls are those that have been pushed. -/
theorem callIds_next (act : Act F D) : (r.next act).callIds = r.callIds := by
  rw [callIds, log_next, callIds]

/-- Pushing an event appends it with the next number. -/
theorem log_push (event : Event F D) (within : List ℕ) (ends : Option ℕ) :
    (r.push event within ends).log = r.log ++ [⟨r.runId, r.entries.length, event⟩] := by
  simp [push, log]

/-- Pushing an event adds its call, if it is one. -/
theorem callIds_push (event : Event F D) (within : List ℕ) (ends : Option ℕ) :
    (r.push event within ends).callIds = r.callIds ++ event.position.callId.toList := by
  rw [callIds, log_push, List.filterMap_append, ← callIds]
  cases hid : event.position.callId <;> simp [hid]

variable [Sha256 D] [Pydantic F D]

/-- The redactor leaves the position of what is appended. -/
def Keeps (r : Recorder F D) (act : Act F D) : Prop :=
  ∀ event within ends event', r.made act = some (event, within, ends) →
    r.redactor.event event = some (some event') → event'.position = event.position

/-- A step appends nothing, or the event that was made. -/
theorem step_cases {act : Act F D} (h : r.step act = some s) : r.allows act = true ∧
    ((s = r.next act ∧ ∀ event within ends, r.made act = some (event, within, ends) →
        r.redactor.event event = some none) ∨
      ∃ event within ends event', r.made act = some (event, within, ends) ∧
        r.redactor.event event = some (some event') ∧ s = (r.next act).push event' within ends) := by
  unfold step at h
  split at h
  · next hallowed =>
    refine ⟨hallowed, ?_⟩
    cases hmade : r.made act with
    | none =>
      rw [hmade] at h
      exact .inl ⟨(Option.some.inj h).symm, by simp⟩
    | some made =>
      obtain ⟨event, within, ends⟩ := made
      simp only [hmade] at h
      cases hredacted : r.redactor.event event with
      | none => simp [hredacted] at h
      | some kept =>
        cases kept with
        | none =>
          simp only [hredacted] at h
          refine .inl ⟨(Option.some.inj h).symm, ?_⟩
          rintro _ _ _ ⟨⟩
          exact hredacted
        | some event' =>
          simp only [hredacted] at h
          exact .inr ⟨event, within, ends, event', rfl, hredacted, (Option.some.inj h).symm⟩
  · cases h

/-- A condition that is met step by step is met by the run. -/
theorem Meets.cons {condition : Recorder F D → Act F D → Prop} {act : Act F D}
    {rest : List (Act F D)} (hact : condition r act) (hstep : r.step act = some s)
    (hrest : s.Meets condition rest) : r.Meets condition (act :: rest) := by
  refine ⟨hact, ?_⟩
  intro t ht
  obtain rfl := Option.some.inj (hstep.symm.trans ht)
  exact hrest

/-- Two conditions that are met are met together. -/
theorem Meets.and {first second : Recorder F D → Act F D → Prop} {acts : List (Act F D)}
    (h : r.Meets first acts) (h' : r.Meets second acts) :
    r.Meets (fun r act => first r act ∧ second r act) acts := by
  induction acts generalizing r with
  | nil => trivial
  | cons act rest ih =>
    exact ⟨⟨h.1, h'.1⟩, fun s hstep => ih (h.2 s hstep) (h'.2 s hstep)⟩

/-- Without redaction events are appended as they are made. -/
theorem keeps_disabled (h : r.redactor = .disabled) (act : Act F D) : r.Keeps act := by
  intro event within ends event' _ hredacted
  rw [h] at hredacted
  obtain rfl := Option.some.inj (Option.some.inj hredacted)
  rfl

/-- What every step that meets a condition preserves, a run preserves. -/
theorem run_induction {condition : Recorder F D → Act F D → Prop} {P : Recorder F D → Prop}
    (hstep : ∀ r act s, P r → condition r act → r.step act = some s → P s)
    {acts : List (Act F D)} (hr : P r) (hmeets : r.Meets condition acts)
    (hrun : r.run acts = some s) : P s := by
  induction acts generalizing r with
  | nil =>
    obtain rfl := Option.some.inj hrun
    exact hr
  | cons act rest ih =>
    obtain ⟨t, ht, hrest⟩ := Option.bind_eq_some_iff.mp hrun
    exact ih (hstep r act t hr hmeets.1 ht) (hmeets.2 t ht) hrest

end Steps

/-! ## Executions -/

/-- A tool call keeps its parent, its request and the scopes around it. -/
theorem next_execution (act : Act F D) {k : ℕ} {execution : Execution F}
    (h : r.executions[k]? = some execution) : ∃ later, (r.next act).executions[k]? = some later ∧
      later.parentCallId = execution.parentCallId ∧ later.request = execution.request ∧
      later.outer = execution.outer := by
  have hstop : ∀ j, ∃ later, (r.stop j)[k]? = some later ∧
      later.parentCallId = execution.parentCallId ∧ later.request = execution.request ∧
      later.outer = execution.outer := by
    intro j
    rw [stop, List.getElem?_modify, h]
    by_cases hjk : j = k
    · exact ⟨{ execution with running := false }, by simp [hjk], rfl, rfl, rfl⟩
    · exact ⟨execution, by simp [hjk], rfl, rfl, rfl⟩
  cases act with
  | session =>
    refine ⟨{ execution with running := false }, ?_, rfl, rfl, rfl⟩
    simp [next, h]
  | call scope parentCallId request =>
    refine ⟨execution, ?_, rfl, rfl, rfl⟩
    simp only [next]
    rw [List.getElem?_append_left (List.getElem?_eq_some_iff.mp h).1, h]
  | finish j outcome => exact hstop j
  | leave j => exact hstop j
  | _ => exact ⟨execution, h, rfl, rfl, rfl⟩

/-- The calls that a step adds to the executions are inside the scope of their thread. -/
theorem outer_of_next {act : Act F D} {execution : Execution F}
    (h : execution ∈ (r.next act).executions) :
    (∃ earlier ∈ r.executions, execution.outer = earlier.outer) ∨
      ∃ scope parentCallId request, act = .call scope parentCallId request ∧
        execution.outer = r.enclosing scope := by
  have hstop : ∀ j, execution ∈ r.stop j → ∃ earlier ∈ r.executions,
      execution.outer = earlier.outer := by
    intro j hmem
    obtain ⟨k, hk⟩ := List.mem_iff_getElem?.mp hmem
    rw [stop, List.getElem?_modify, Option.map_eq_map, Option.map_eq_some_iff] at hk
    obtain ⟨earlier, hearlier, hsame⟩ := hk
    refine ⟨earlier, List.mem_of_getElem? hearlier, ?_⟩
    split at hsame <;> rw [← hsame]
  cases act with
  | session =>
    obtain ⟨earlier, hearlier, rfl⟩ := List.mem_map.mp h
    exact .inl ⟨earlier, hearlier, rfl⟩
  | call scope parentCallId request =>
    rcases List.mem_append.mp h with hold | hnew
    · exact .inl ⟨execution, hold, rfl⟩
    · rw [List.mem_singleton.mp hnew]
      exact .inr ⟨scope, parentCallId, request, rfl, rfl⟩
  | finish j outcome => exact .inl (hstop j h)
  | leave j => exact .inl (hstop j h)
  | _ => exact .inl ⟨execution, h, rfl⟩

/-- A thread that may act in a tool call is in one that was begun. -/
theorem exists_execution {k : ℕ} (h : r.isLive (some k) = true) :
    ∃ execution, r.executions[k]? = some execution := by
  simp only [isLive, Option.all_some] at h
  cases hk : r.executions[k]? with
  | none => simp [hk] at h
  | some execution => exact ⟨execution, rfl⟩

/-! ## Ids -/

/-- The log is numbered from zero, minted ids name one model call each, and the event of a
tool call has the ids that it was called with. -/
structure Consistent (r : Recorder F D) : Prop where
  seqs : (r.log.map fun stored => stored.seq) =
    (List.range r.entries.length).map fun i : ℕ => (i : ℤ)
  hex : ∀ id ∈ r.minted, Hex id
  calls : ∀ id ∈ r.callIds, id ∈ r.minted ∧ id ∉ r.handles
  distinct : r.callIds.Nodup
  handles : ∀ id ∈ r.handles, id ∈ r.minted
  once : r.handles.Nodup
  ends : ∀ entry ∈ r.entries, ∀ k, entry.ends = some k → ∃ execution,
    r.executions[k]? = some execution ∧ entry.stored.event.position =
      .toolCall execution.parentCallId execution.request.id execution.request.batchIndex

/-- A recorder that has begun is consistent. -/
theorem Begun.consistent (h : r.Begun) : r.Consistent := by
  obtain ⟨runId, redactor, rfl | ⟨source, hsource, rfl⟩⟩ := h
  · constructor <;> simp [started, log, callIds]
  · constructor <;> simp [forked, log, callIds]
    exact hsource

section Ids

variable [Sha256 D]

/-- Only a model call gets the id of a model call. -/
theorem callId_of_made {act : Act F D} {event : Event F D} {within : List ℕ} {ends : Option ℕ}
    {id : Text} (hmade : r.made act = some (event, within, ends))
    (hid : event.position.callId = some id) : ∃ scope model,
      (act = .create scope model ∨ act = .finalize scope model) ∧ model.callId = id := by
  cases act with
  | create scope model =>
    obtain ⟨rfl, -, -⟩ := by simpa [made] using hmade
    exact ⟨scope, model, .inl rfl, Option.some.inj hid⟩
  | finalize scope model =>
    obtain ⟨rfl, -, -⟩ := by simpa [made] using hmade
    exact ⟨scope, model, .inr rfl, Option.some.inj hid⟩
  | finish k outcome =>
    obtain ⟨execution, -, hevent⟩ := Option.map_eq_some_iff.mp hmade
    obtain ⟨rfl, -, -⟩ := by simpa using hevent
    cases hid
  | session | serve | stream | call | leave => cases hmade
  | _ =>
    obtain ⟨rfl, -, -⟩ := by simpa [made] using hmade
    cases hid

/-- Only the event of a tool call ends one. -/
theorem ends_of_made {act : Act F D} {event : Event F D} {within : List ℕ} {k : ℕ}
    (hmade : r.made act = some (event, within, some k)) : ∃ execution,
      r.executions[k]? = some execution ∧ within = execution.outer ∧ event.position =
        .toolCall execution.parentCallId execution.request.id execution.request.batchIndex := by
  cases act with
  | finish j outcome =>
    obtain ⟨execution, hexecution, hevent⟩ := Option.map_eq_some_iff.mp hmade
    obtain ⟨rfl, rfl, rfl⟩ := by simpa using hevent
    exact ⟨execution, hexecution, rfl, rfl⟩
  | session | serve | stream | call | leave => cases hmade
  | _ => simp [made] at hmade

omit [Sha256 D] in
/-- A step without an event keeps the ids apart. -/
theorem Consistent.next (h : r.Consistent) {act : Act F D} (hallowed : r.allows act = true) :
    (r.next act).Consistent := by
  have hends : ∀ entry ∈ (r.next act).entries, ∀ k, entry.ends = some k → ∃ execution,
      (r.next act).executions[k]? = some execution ∧ entry.stored.event.position =
        .toolCall execution.parentCallId execution.request.id execution.request.batchIndex := by
    intro entry hentry k hk
    rw [next_entries] at hentry
    obtain ⟨execution, hexecution, hposition⟩ := h.ends entry hentry k hk
    obtain ⟨later, hlater, hparent, hrequest, -⟩ := next_execution act hexecution
    exact ⟨later, hlater, by rw [hposition, hparent, hrequest]⟩
  have hseqs : ((r.next act).log.map fun stored => stored.seq) =
      (List.range (r.next act).entries.length).map fun i : ℕ => (i : ℤ) := by
    rw [log_next, next_entries]
    exact h.seqs
  have hdistinct : (r.next act).callIds.Nodup := by
    rw [callIds_next]
    exact h.distinct
  cases act with
  | session =>
    refine ⟨hseqs, h.hex, ?_, hdistinct, ?_, List.nodup_nil, hends⟩
    · exact fun id hid => ⟨(h.calls id hid).1, List.not_mem_nil⟩
    · exact fun id hid => nomatch hid
  | create scope model =>
    simp only [allows, Bool.and_eq_true, decide_eq_true_eq] at hallowed
    refine ⟨hseqs, List.forall_mem_cons.mpr ⟨hallowed.2, h.hex⟩, ?_, hdistinct, ?_, h.once, hends⟩
    · exact fun id hid => ⟨List.mem_cons_of_mem _ (h.calls id hid).1, (h.calls id hid).2⟩
    · exact fun id hid => List.mem_cons_of_mem _ (h.handles id hid)
  | stream callId =>
    simp only [allows, Bool.and_eq_true, decide_eq_true_eq] at hallowed
    refine ⟨hseqs, List.forall_mem_cons.mpr ⟨hallowed.2, h.hex⟩, ?_, hdistinct, ?_, ?_, hends⟩
    · intro id hid
      refine ⟨List.mem_cons_of_mem _ (h.calls id hid).1, ?_⟩
      rintro (_ | ⟨_, hold⟩)
      · exact hallowed.1 (h.calls _ hid).1
      · exact (h.calls id hid).2 hold
    · exact List.forall_mem_cons.mpr ⟨List.mem_cons_self .., fun id hid =>
        List.mem_cons_of_mem _ (h.handles id hid)⟩
    · exact List.nodup_cons.mpr ⟨fun hin => hallowed.1 (h.handles callId hin), h.once⟩
  | finalize scope model =>
    refine ⟨hseqs, h.hex, ?_, hdistinct, ?_, h.once.erase _, hends⟩
    · exact fun id hid => ⟨(h.calls id hid).1,
        fun hin => (h.calls id hid).2 (List.mem_of_mem_erase hin)⟩
    · exact fun id hid => h.handles id (List.mem_of_mem_erase hid)
  | _ => exact ⟨hseqs, h.hex, h.calls, hdistinct, h.handles, h.once, hends⟩

omit [Sha256 D] in
/-- An event with a new id keeps the ids apart. -/
theorem Consistent.push (h : r.Consistent) {event : Event F D} {within : List ℕ}
    {ends : Option ℕ}
    (hid : ∀ id, event.position.callId = some id →
      id ∈ r.minted ∧ id ∉ r.handles ∧ id ∉ r.callIds)
    (hends : ∀ k, ends = some k → ∃ execution, r.executions[k]? = some execution ∧
      event.position =
        .toolCall execution.parentCallId execution.request.id execution.request.batchIndex) :
    (r.push event within ends).Consistent where
  seqs := by
    rw [log_push, List.map_append, h.seqs]
    simp [Recorder.push, List.range_succ]
  hex := h.hex
  calls := by
    intro id hin
    rw [callIds_push, List.mem_append] at hin
    rcases hin with hold | hnew
    · exact h.calls id hold
    · obtain ⟨hminted, hhandles, -⟩ := hid id (Option.mem_toList.mp hnew)
      exact ⟨hminted, hhandles⟩
  distinct := by
    rw [callIds_push, List.nodup_append]
    refine ⟨h.distinct, ?_, ?_⟩
    · cases event.position.callId <;> simp
    · rintro id hold _ hnew rfl
      exact (hid id (Option.mem_toList.mp hnew)).2.2 hold
  handles := h.handles
  once := h.once
  ends := by
    intro entry hentry k hk
    rcases List.mem_append.mp hentry with hold | hnew
    · exact h.ends entry hold k hk
    · obtain rfl := List.mem_singleton.mp hnew
      exact hends k hk

variable [Pydantic F D]

/-- A step keeps the ids apart. -/
theorem Consistent.step (h : r.Consistent) {act : Act F D} (hkeeps : r.Keeps act)
    (hstep : r.step act = some s) : s.Consistent := by
  obtain ⟨hallowed, ⟨rfl, -⟩ | ⟨event, within, ends, event', hmade, hredacted, rfl⟩⟩ :=
    step_cases hstep
  · exact h.next hallowed
  have hposition := hkeeps event within ends event' hmade hredacted
  apply (h.next hallowed).push
  · intro id hid
    rw [hposition] at hid
    rw [callIds_next]
    obtain ⟨scope, model, rfl | rfl, rfl⟩ := callId_of_made hmade hid
    · simp only [allows, Bool.and_eq_true, decide_eq_true_eq] at hallowed
      refine ⟨List.mem_cons_self .., fun hin => ?_, fun hin => ?_⟩
      · exact hallowed.1.2 (h.handles _ hin)
      · exact hallowed.1.2 (h.calls _ hin).1
    · simp only [allows, Bool.and_eq_true, decide_eq_true_eq] at hallowed
      refine ⟨h.handles _ hallowed.2, fun hin => ?_, fun hin => ?_⟩
      · exact (List.Nodup.mem_erase_iff h.once).mp hin |>.1 rfl
      · exact (h.calls _ hin).2 hallowed.2
  · rintro k rfl
    obtain ⟨execution, hexecution, -, hevent⟩ := ends_of_made hmade
    obtain ⟨later, hlater, hparent, hrequest, -⟩ := next_execution act hexecution
    exact ⟨later, hlater, by rw [hposition, hevent, hparent, hrequest]⟩

end Ids

end Recorder

/-! ## Events of small runs -/

namespace Demo

/-- A time at which nothing took long. -/
def instant : EventMeta Decimal where
  recordedAt := ⟨"0.0".toList, by decide, by decide⟩
  durationMs := none
  chunkOffsetsMs := none

/-- A minted id. -/
def minted (last : Char) : Text := List.replicate 31 '0' ++ [last]

/-- An answer with nothing in it. -/
def silent : ModelResponse Decimal := { finishReason := [] }

/-- A model call that is answered with nothing. -/
def answer (last : Char) : ModelCallEvent Decimal where
  callId := minted last
  provider := []
  modelId := []
  modelVersion := none
  params := {}
  tools := none
  messages := []
  messagesHash := []
  response := silent
  stream := none
  eventMeta := instant
  reassembles := streamReassembles_none _

/-- A request for a tool call. -/
def request (id : String) (batchIndex : ℤ) : ToolCallRequest Decimal where
  id := id.toList
  name := []
  args := ⟨[], rfl⟩
  batchIndex := batchIndex

/-- The outcome of a tool call. -/
def nothing : ToolCallEvent Decimal HexDigest where
  parentCallId := []
  toolCallId := []
  batchIndex := 0
  name := []
  args := ⟨[], rfl⟩
  argsHash := []
  result := ⟨Sha256.hash [], 0⟩
  status := .ok
  error := none
  eventMeta := instant

/-- A look at the clock. -/
def clock : EnvironmentEvent Decimal where
  source := .clock
  key := none
  value := sortKeys .null
  eventMeta := instant

/-- The beginning of a run without redaction. -/
def start : Recorder Decimal HexDigest := .started "run".toList .disabled

end Demo

end Tracewake.Recording
