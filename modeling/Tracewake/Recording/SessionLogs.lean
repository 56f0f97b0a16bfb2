import Mathlib.Data.Set.Basic
import Tracewake.Recording.Logs
import Tracewake.Recording.Recorder

/-!
# The log of a session

The methods of a session run one after the other. Their courses are runs of the recorder with
one thread: each event that a method hands to `_append` is the one that the recorder makes
for the thread, in the scope of the tool that the thread runs. So what holds of the logs of
recorders holds of the logs of sessions.
-/

namespace Tracewake.Recording

open JsonText Effects

variable {F D W : Type} [Python F]

/-- `uuid4` draws hexadecimal ids and never one twice. Those that were drawn up to a state of
the world stay drawn, whatever the world is asked. -/
structure World.DrawsOnce (world : World F D W) (drawn : W → Set Text) : Prop where
  hex : ∀ outside, Hex (world.uuid4 outside).1
  fresh : ∀ outside, (world.uuid4 outside).1 ∉ drawn outside
  draws : ∀ outside, (world.uuid4 outside).1 ∈ drawn (world.uuid4 outside).2
  keeps : world.Keeps fun outside later => drawn outside ⊆ drawn later

namespace Recorder

variable {r s t : Recorder F D}

/-! ## Threads -/

/-- The value of `tool_scope` in a thread. -/
def toolScope (r : Recorder F D) (scope : Option ℕ) : Option Text × Option Text :=
  ((r.executionOf scope).map fun execution => execution.parentCallId,
    (r.executionOf scope).map fun execution => execution.request.id)

/-- A tool call that a thread is in is as it was where the tool calls that were begun have not
changed. -/
theorem executionOf_of_begun (h : r.executions <+: s.executions) {scope : Option ℕ}
    (hlive : r.isLive scope = true) : s.executionOf scope = r.executionOf scope := by
  cases scope with
  | none => rfl
  | some k =>
    obtain ⟨execution, hexecution⟩ := exists_execution hlive
    obtain ⟨more, hmore⟩ := h
    simp only [executionOf, Option.bind_some]
    rw [← hmore, List.getElem?_append_left (List.getElem?_eq_some_iff.mp hexecution).1]

/-- A thread has a running tool call exactly if it has a tool call. -/
theorem isLive_eq (r : Recorder F D) (scope : Option ℕ) :
    r.isLive scope =
      (scope.isNone || (r.executionOf scope).any fun execution => execution.running) := by
  cases scope <;> simp [isLive, executionOf]

/-- A thread goes on in its tool call where the tool calls that were begun have not changed. -/
theorem isLive_of_begun (h : r.executions <+: s.executions) {scope : Option ℕ}
    (hlive : r.isLive scope = true) : s.isLive scope = true := by
  rw [isLive_eq, executionOf_of_begun h hlive, ← isLive_eq]
  exact hlive

/-- Ending the tool call that was begun last changes no earlier one. -/
theorem begun_stop {executions : List (Execution F)} (h : executions <+: r.executions) :
    executions <+: r.stop executions.length := by
  obtain ⟨more, hmore⟩ := h
  rw [stop, ← hmore, List.modify_eq_take_drop, List.take_left' rfl]
  exact List.prefix_append _ _

variable [Sha256 D] [Pydantic F D]

/-! ## Runs -/

/-- Two runs in turn. The induction is on the first one. -/
theorem run_append {acts more : List (Act F D)} (h : r.run acts = some s)
    (h' : s.run more = some t) : r.run (acts ++ more) = some t := by
  induction acts generalizing r with
  | nil =>
    cases h
    exact h'
  | cons act rest ih =>
    obtain ⟨next, hstep, hrest⟩ := Option.bind_eq_some_iff.mp h
    exact Option.bind_eq_some_iff.mpr ⟨next, hstep, ih hrest⟩

/-- The recorder goes on to another one, and the tool calls that were begun stay as they
are. -/
structure Continues (r s : Recorder F D) : Prop where
  run : ∃ acts, r.run acts = some s
  executions : r.executions <+: s.executions

/-- Nothing was done. -/
theorem Continues.refl (r : Recorder F D) : r.Continues r :=
  ⟨⟨[], rfl⟩, List.prefix_refl _⟩

/-- What goes on in two parts goes on in their sequence. -/
theorem Continues.trans (h : r.Continues s) (h' : s.Continues t) : r.Continues t := by
  obtain ⟨⟨acts, hacts⟩, hbegun⟩ := h
  obtain ⟨⟨more, hmore⟩, hbegun'⟩ := h'
  exact ⟨⟨acts ++ more, run_append hacts hmore⟩, hbegun.trans hbegun'⟩

/-- A step is a run. -/
theorem Continues.of_step {act : Act F D} (h : r.step act = some s)
    (hbegun : r.executions <+: s.executions) : r.Continues s :=
  ⟨⟨[act], Option.bind_eq_some_iff.mpr ⟨s, h, rfl⟩⟩, hbegun⟩

/-- The run up to a step, and the step. -/
theorem Continues.append {act : Act F D} (h : r.Continues s) (hstep : s.step act = some t) :
    ∃ acts, r.run acts = some t := by
  obtain ⟨⟨acts, hacts⟩, -⟩ := h
  exact ⟨acts ++ [act], run_append hacts (Option.bind_eq_some_iff.mpr ⟨t, hstep, rfl⟩)⟩

/-- A tool call that was begun stays as it is. -/
theorem Continues.getElem? (h : r.Continues s) {k : ℕ} {execution : Execution F}
    (hk : r.executions[k]? = some execution) : s.executions[k]? = some execution := by
  obtain ⟨more, hmore⟩ := h.executions
  rw [← hmore, List.getElem?_append_left (List.getElem?_eq_some_iff.mp hk).1, hk]

omit [Sha256 D] [Pydantic F D] in
/-- The recorder after `_append`: the hook keeps the event, or it drops it. -/
def keep (r : Recorder F D) (recorded : Option (Event F D)) (within : List ℕ)
    (ends : Option ℕ) : Recorder F D :=
  match recorded with
  | none => r
  | some event => r.push event within ends

/-- A step appends what the redactor made of the event. -/
theorem step_kept {act : Act F D} {event : Event F D} {within : List ℕ} {ends : Option ℕ}
    {recorded : Option (Event F D)} (hallowed : r.allows act = true)
    (hmade : r.made act = some (event, within, ends))
    (hredacted : r.redactor.event event = some recorded) :
    r.step act = some ((r.next act).keep recorded within ends) := by
  rw [step, if_pos hallowed, hmade]
  simp only [hredacted]
  cases recorded <;> rfl

/-- A step without an event. -/
theorem step_quiet {act : Act F D} (hallowed : r.allows act = true) (hmade : r.made act = none) :
    r.step act = some (r.next act) := by
  rw [step, if_pos hallowed, hmade]

/-- A step does not change the redactor. -/
theorem step_redactor {act : Act F D} (h : r.step act = some s) : s.redactor = r.redactor := by
  have hnext : (r.next act).redactor = r.redactor := by
    cases act <;> rfl
  obtain ⟨-, ⟨rfl, -⟩ | ⟨_, _, _, _, -, -, rfl⟩⟩ := step_cases h
  · exact hnext
  · exact hnext

/-- Without redaction a run keeps the ids apart. The induction is on the run. -/
theorem Consistent.run (h : r.Consistent) (hoff : r.redactor = .disabled)
    {acts : List (Act F D)} (hrun : r.run acts = some s) : s.Consistent := by
  induction acts generalizing r with
  | nil =>
    cases hrun
    exact h
  | cons act rest ih =>
    obtain ⟨next, hstep, hrest⟩ := Option.bind_eq_some_iff.mp hrun
    exact ih (h.step (keeps_disabled hoff act) hstep) ((step_redactor hstep).trans hoff) hrest

/-! ## Machines -/

/-- The recorder has the state of a session: its log, the call that its agent is in, the
streams that are not consumed, and the scope of its thread. -/
structure Mirrors (drawn : W → Set Text) (r : Recorder F D) (scope : Option ℕ)
    (opened : List Text) (machine : Machine F D W) : Prop where
  runId : machine.session.runId = r.runId
  redactor : machine.session.redactor = r.redactor
  currentCallId : machine.session.currentCallId = r.currentCallId
  recorded : ∀ calls ∈ machine.session.recordedCalls, ∀ call ∈ calls, call.callId ∈ r.recorded
  toolScope : machine.scope = r.toolScope scope
  live : r.isLive scope = true
  handles : r.handles = opened
  minted : ∀ id ∈ r.minted, id ∈ drawn machine.outside
  numbered : r.log = (r.log.map fun stored => stored.event).mapIdx
    fun seq event => ⟨r.runId, seq, event⟩
  logs : machine.store.Logs r.runId (r.log.map fun stored => stored.event)

namespace Mirrors

variable {drawn : W → Set Text} {scope : Option ℕ} {opened : List Text} {machine : Machine F D W}

/-- The run that is read back from the store is the log. -/
theorem events (h : r.Mirrors drawn scope opened machine) :
    machine.store.events r.runId = some r.log := by
  rw [h.logs.events_numbered, ← h.numbered]

/-- What `_append` keeps comes into the log and into the store. -/
theorem keep (h : r.Mirrors drawn scope opened machine) (recorded : Option (Event F D))
    (within : List ℕ) (ends : Option ℕ) :
    (r.keep recorded within ends).Mirrors drawn scope opened (machine.kept recorded) := by
  cases recorded with
  | none => exact h
  | some event =>
    have hlength : r.entries.length = (r.log.map fun stored => stored.event).length := by
      simp [log]
    refine ⟨h.runId, h.redactor, h.currentCallId, h.recorded, h.toolScope, h.live, h.handles,
      h.minted, ?_, ?_⟩
    · rw [Recorder.keep, log_push, List.map_append, List.map_singleton, List.mapIdx_concat,
        ← hlength]
      exact congrArg (· ++ _) h.numbered
    · rw [Recorder.keep, log_push, List.map_append]
      simp only [Machine.kept, h.runId]
      exact h.logs.append event

/-- The agent is served a recorded call. -/
theorem serve (h : r.Mirrors drawn scope opened machine) {call : ModelCallEvent F}
    (hcall : ∃ calls ∈ machine.session.recordedCalls, call ∈ calls) :
    ∃ s, r.Continues s ∧ s.Mirrors drawn scope opened (machine.calling call.callId) := by
  obtain ⟨calls, hcalls, hmem⟩ := hcall
  have hallowed : r.allows (.serve call.callId) = true :=
    decide_eq_true (h.recorded calls hcalls call hmem)
  exact ⟨r.next (.serve call.callId), .of_step (step_quiet hallowed rfl) (List.prefix_refl _),
    { h with currentCallId := rfl }⟩

/-- The event is made by an act of the thread that changes nothing but the log. -/
theorem exists_made (h : r.Mirrors drawn scope opened machine) {event : Event F D}
    (hplaces : machine.Places event) : ∃ act, r.allows act = true ∧ r.next act = r ∧
      r.made act = some (event, r.enclosing scope, none) := by
  have htool : machine.scope.2 =
      (r.executionOf scope).map fun execution => execution.request.id := by
    rw [h.toolScope, Recorder.toolScope]
  have hscope (base : EventBase F) (hparent : base.parentCallId = machine.parent)
      (hbase : base.toolCallId = machine.scope.2) : r.scopeFields scope base.eventMeta = base := by
    rw [Machine.parent, h.toolScope, h.currentCallId] at hparent
    rw [scopeFields, ← htool, ← hbase]
    exact congrArg (fun parent => (⟨parent, base.toolCallId, base.eventMeta⟩ : EventBase F))
      hparent.symm
  cases event with
  | modelCall => exact hplaces.elim
  | toolCall => exact hplaces.elim
  | intervention => exact hplaces.elim
  | environment event =>
    have hbase : r.envFields scope event.eventMeta = event.toEventBase := by
      rw [envFields, ← h.currentCallId, ← htool, ← hplaces.1, ← hplaces.2]
    refine ⟨.envValue scope event, h.live, rfl, ?_⟩
    rw [made, hbase]
  | fsRead event =>
    refine ⟨.read scope event, h.live, rfl, ?_⟩
    rw [made, hscope event.toEventBase hplaces.1 hplaces.2]
  | fsWrite event =>
    refine ⟨.write scope event, h.live, rfl, ?_⟩
    rw [made, hscope event.toEventBase hplaces.1 hplaces.2]
  | outcome event =>
    refine ⟨.outcome scope event, h.live, rfl, ?_⟩
    rw [made, ← h.currentCallId, ← hplaces.1, ← hplaces.2]

/-- An event in the scope of the thread is handed to `_append`. -/
theorem append (h : r.Mirrors drawn scope opened machine) {event : Event F D}
    {recorded : Option (Event F D)} (hplaces : machine.Places event)
    (hredacted : machine.session.redactor.event event = some recorded) :
    ∃ s, r.Continues s ∧ s.Mirrors drawn scope opened (machine.kept recorded) := by
  obtain ⟨act, hallowed, hnext, hmade⟩ := h.exists_made hplaces
  rw [h.redactor] at hredacted
  have hstep := step_kept hallowed hmade hredacted
  rw [hnext] at hstep
  have hkeep := h.keep recorded (r.enclosing scope) none
  refine ⟨_, .of_step hstep ?_, hkeep⟩
  cases recorded <;> exact List.prefix_refl _

/-- A model call that the agent is answered is the one that it is in from then on. -/
theorem asked (h : r.Mirrors drawn scope opened machine) {act : Act F D} {call : ModelCallEvent F}
    {recorded : Option (Event F D)} (hasks : machine.Asks call)
    (hredacted : machine.session.redactor.event (.modelCall call) = some recorded)
    (hact : act = .create scope call ∨ act = .finalize scope call)
    (hallowed : r.allows act = true) {later : Machine F D W} {opened' : List Text}
    (hnext : (r.next act).Mirrors drawn scope opened' (later.calling call.callId)) :
    ∃ s, r.Continues s ∧
      s.Mirrors drawn scope opened' ((later.kept recorded).calling call.callId) := by
  have hmade : r.made act = some (.modelCall call, r.enclosing scope, none) := by
    rcases hact with rfl | rfl <;>
      rw [made, ← h.currentCallId, ← hasks.parentCallId, ← hasks.toolCallId]
  rw [h.redactor] at hredacted
  have hkeep := hnext.keep recorded (r.enclosing scope) none
  refine ⟨_, .of_step (step_kept hallowed hmade hredacted) ?_, ?_⟩
  · rcases hact with rfl | rfl <;> cases recorded <;> exact List.prefix_refl _
  · cases recorded <;> exact hkeep

/-- A model call is answered with an id that was just drawn. -/
theorem create (h : r.Mirrors drawn scope opened machine) {world : World F D W}
    (hworld : world.DrawsOnce drawn) {call : ModelCallEvent F} {recorded : Option (Event F D)}
    (hid : call.callId = (world.uuid4 machine.outside).1) (hasks : machine.Asks call)
    (hredacted : machine.session.redactor.event (.modelCall call) = some recorded) :
    ∃ s, r.Continues s ∧ s.Mirrors drawn scope opened
      (((machine.drawn world).kept recorded).calling call.callId) := by
  have hfresh : call.callId ∉ r.minted := fun hmem => by
    rw [hid] at hmem
    exact hworld.fresh machine.outside (h.minted _ hmem)
  have hallowed : r.allows (.create scope call) = true := by
    rw [hid] at hfresh
    simp [allows, h.live, hid, hfresh, hworld.hex]
  refine h.asked hasks hredacted (.inl rfl) hallowed { h with currentCallId := rfl, minted := ?_ }
  refine List.forall_mem_cons.mpr ⟨?_, fun id hmem => hworld.keeps.ids _ (h.minted id hmem)⟩
  rw [hid]
  exact hworld.draws machine.outside

/-- A stream is opened with an id that was just drawn. -/
theorem stream (h : r.Mirrors drawn scope opened machine) {world : World F D W}
    (hworld : world.DrawsOnce drawn) : ∃ s, r.Continues s ∧ s.Mirrors drawn scope
      ((world.uuid4 machine.outside).1 :: opened) (machine.drawn world) := by
  have hfresh : (world.uuid4 machine.outside).1 ∉ r.minted := fun hmem =>
    hworld.fresh machine.outside (h.minted _ hmem)
  have hallowed : r.allows (.stream (world.uuid4 machine.outside).1) = true := by
    simp [allows, hfresh, hworld.hex]
  refine ⟨_, .of_step (step_quiet hallowed rfl) (List.prefix_refl _),
    { h with handles := congrArg _ h.handles, minted := ?_ }⟩
  exact List.forall_mem_cons.mpr ⟨hworld.draws machine.outside,
    fun id hmem => hworld.keeps.ids _ (h.minted id hmem)⟩

/-- A stream is consumed. -/
theorem finalize (h : r.Mirrors drawn scope opened machine) {call : ModelCallEvent F}
    {recorded : Option (Event F D)} (hopened : call.callId ∈ opened) (hasks : machine.Asks call)
    (hredacted : machine.session.redactor.event (.modelCall call) = some recorded) :
    ∃ s, r.Continues s ∧ s.Mirrors drawn scope (opened.erase call.callId)
      ((machine.kept recorded).calling call.callId) := by
  have hallowed : r.allows (.finalize scope call) = true := by
    simp [allows, h.live, h.handles, hopened]
  refine h.asked hasks hredacted (.inr rfl) hallowed { h with currentCallId := rfl, handles := ?_ }
  exact congrArg (·.erase call.callId) h.handles

/-- The thread begins a tool call. -/
theorem call (h : r.Mirrors drawn scope opened machine) (parentCallId : Text)
    (request : ToolCallRequest F) :
    ∃ s, r.Continues s ∧ s.executions.length = r.executions.length + 1 ∧
      s.executions[r.executions.length]? =
        some ⟨parentCallId, request, r.enclosing scope, true⟩ ∧
      s.Mirrors drawn (some r.executions.length) opened
        (machine.inTool parentCallId request.id) := by
  have hallowed : r.allows (.call scope parentCallId request) = true := h.live
  have hlast : (r.next (.call scope parentCallId request)).executions[r.executions.length]? =
      some ⟨parentCallId, request, r.enclosing scope, true⟩ := by
    simp [next]
  refine ⟨_, .of_step (step_quiet hallowed rfl) (List.prefix_append _ _), by simp [next], hlast,
    { h with toolScope := ?_, live := ?_ }⟩
  · simp only [Recorder.toolScope, executionOf, Option.bind_some, hlast, Option.map_some]
    rfl
  · simp [isLive, hlast]

/-- The thread is back in the scope that it has called the tool in. -/
theorem back {s : Recorder F D} (h : r.Mirrors drawn scope opened machine) {opened' : List Text}
    {machine' : Machine F D W}
    (hinside : s.Mirrors drawn (some r.executions.length) opened' machine')
    (hbegun : r.executions <+: s.executions) :
    let left := { s with executions := s.stop r.executions.length }
    r.executions <+: left.executions ∧
      left.Mirrors drawn scope opened' { machine' with scope := machine.scope } := by
  intro left
  have hback : r.executions <+: left.executions := begun_stop hbegun
  refine ⟨hback, { hinside with toolScope := ?_, live := isLive_of_begun hback h.live }⟩
  rw [Recorder.toolScope, executionOf_of_begun hback h.live]
  exact h.toolScope

/-- A tool is left without an event: it was served or raised, or its event was refused. -/
theorem leave {s : Recorder F D} (h : r.Mirrors drawn scope opened machine)
    {opened' : List Text} {machine' : Machine F D W}
    (hinside : s.Mirrors drawn (some r.executions.length) opened' machine')
    (hbegun : r.executions <+: s.executions) :
    ∃ t, s.step (.leave r.executions.length) = some t ∧ r.executions <+: t.executions ∧
      t.Mirrors drawn scope opened' { machine' with scope := machine.scope } :=
  ⟨_, step_quiet hinside.live rfl, h.back hinside hbegun⟩

/-- A tool is left with its event. -/
theorem finish {s : Recorder F D} (h : r.Mirrors drawn scope opened machine)
    {opened' : List Text} {machine' : Machine F D W} {parentCallId : Text}
    {request : ToolCallRequest F} {event : ToolCallEvent F D} {recorded : Option (Event F D)}
    (hinside : s.Mirrors drawn (some r.executions.length) opened' machine')
    (hbegun : r.executions <+: s.executions)
    (hexecution : s.executions[r.executions.length]? =
      some ⟨parentCallId, request, r.enclosing scope, true⟩)
    (hanswers : machine'.Answers parentCallId request event)
    (hredacted : machine'.session.redactor.event (.toolCall event) = some recorded) :
    ∃ t, s.step (.finish r.executions.length event) = some t ∧ r.executions <+: t.executions ∧
      t.Mirrors drawn scope opened' { machine'.kept recorded with scope := machine.scope } := by
  have hevent : s.toolEvent ⟨parentCallId, request, r.enclosing scope, true⟩ event = event := by
    have hargs := hanswers.args
    rw [hinside.redactor] at hargs
    rw [toolEvent, ← hargs, ← hanswers.argsHash, ← hanswers.parentCallId, ← hanswers.toolCallId,
      ← hanswers.batchIndex, ← hanswers.name]
  have hmade : s.made (.finish r.executions.length event) =
      some (.toolCall event, r.enclosing scope, some r.executions.length) := by
    rw [made, hexecution, Option.map_some, hevent]
  rw [hinside.redactor] at hredacted
  obtain ⟨hback, hmirrors⟩ := h.back hinside hbegun
  refine ⟨_, step_kept hinside.live hmade hredacted, ?_, ?_⟩
  · cases recorded <;> exact hback
  · have hkeep := hmirrors.keep recorded (r.enclosing scope) (some r.executions.length)
    cases recorded <;> exact hkeep

end Mirrors

end Recorder

variable [Sha256 D] [Pydantic F D]

open Recorder

/-- Every course of the methods of a session is a run of the recorder, in the scope of the
thread that the session is in. The induction is on the course. -/
theorem Course.mirrored {world : World F D W} {drawn : W → Set Text}
    (hworld : world.DrawsOnce drawn) {live : Prop} {opened opened' : List Text}
    {machine machine' : Machine F D W}
    (hcourse : Course world (fun outside later => drawn outside ⊆ drawn later) live opened machine
      opened' machine')
    {r : Recorder F D} {scope : Option ℕ} (h : r.Mirrors drawn scope opened machine) :
    ∃ s, r.Continues s ∧ s.Mirrors drawn scope opened' machine' := by
  induction hcourse generalizing r scope with
  | refl opened machine => exact ⟨r, .refl r, h⟩
  | session before settled ih =>
    obtain ⟨s, hs, hmirrors⟩ := ih h
    refine ⟨s, hs, { hmirrors with
      runId := settled.runId.trans hmirrors.runId
      redactor := settled.redactor.trans hmirrors.redactor
      currentCallId := settled.currentCallId.trans hmirrors.currentCallId
      recorded := ?_ }⟩
    rw [settled.recordedCalls]
    exact hmirrors.recorded
  | serve before recorded ih =>
    obtain ⟨s, hs, hmirrors⟩ := ih h
    obtain ⟨t, ht, hserved⟩ := hmirrors.serve recorded
    exact ⟨t, hs.trans ht, hserved⟩
  | outside before isLive isLater ih =>
    obtain ⟨s, hs, hmirrors⟩ := ih h
    exact ⟨s, hs, { hmirrors with minted := fun id hid => isLater (hmirrors.minted id hid) }⟩
  | blobs before isLive ih =>
    obtain ⟨s, hs, hmirrors⟩ := ih h
    exact ⟨s, hs, { hmirrors with }⟩
  | append before isLive places redacted ih =>
    obtain ⟨s, hs, hmirrors⟩ := ih h
    obtain ⟨t, ht, happended⟩ := hmirrors.append places redacted
    exact ⟨t, hs.trans ht, happended⟩
  | create before isLive drawn asks redacted ih =>
    obtain ⟨s, hs, hmirrors⟩ := ih h
    obtain ⟨t, ht, hcreated⟩ := hmirrors.create hworld drawn asks redacted
    exact ⟨t, hs.trans ht, hcreated⟩
  | stream before isLive ih =>
    obtain ⟨s, hs, hmirrors⟩ := ih h
    obtain ⟨t, ht, hopened⟩ := hmirrors.stream hworld
    exact ⟨t, hs.trans ht, hopened⟩
  | finalize before isLive unconsumed asks redacted ih =>
    obtain ⟨s, hs, hmirrors⟩ := ih h
    obtain ⟨t, ht, hconsumed⟩ := hmirrors.finalize unconsumed asks redacted
    exact ⟨t, hs.trans ht, hconsumed⟩
  | leave before body ih ih' =>
    obtain ⟨s, hs, hmirrors⟩ := ih h
    obtain ⟨t, ht, -, -, hcalled⟩ := hmirrors.call _ _
    obtain ⟨u, hu, hinside⟩ := ih' hcalled
    obtain ⟨v, hstep, hbegun, hleft⟩ := hmirrors.leave hinside (ht.trans hu).executions
    exact ⟨v, ⟨((hs.trans ht).trans hu).append hstep, hs.executions.trans hbegun⟩, hleft⟩
  | finish before body isLive answers redacted ih ih' =>
    obtain ⟨s, hs, hmirrors⟩ := ih h
    obtain ⟨t, ht, hlength, hexecution, hcalled⟩ := hmirrors.call _ _
    obtain ⟨u, hu, hinside⟩ := ih' hcalled
    have hlater := hu.getElem? hexecution
    obtain ⟨v, hstep, hbegun, hleft⟩ :=
      hmirrors.finish hinside (ht.trans hu).executions hlater answers redacted
    exact ⟨v, ⟨((hs.trans ht).trans hu).append hstep, hs.executions.trans hbegun⟩, hleft⟩

/-! ## Sessions -/

section Sessions

variable {world : World F D W} {drawn : W → Set Text} {r : Recorder F D}

/-- Whatever operations are run on a session, and whichever of them raise, its log is that of a
run of the recorder. -/
theorem runOperations_mirrored [DecidableEq D] (hworld : world.DrawsOnce drawn)
    {machine : Machine F D W} {handles : List (StreamHandle F D)}
    (operations : List (Operation F))
    (h : r.Mirrors drawn none (handles.flatMap StreamHandle.pending) machine) :
    ∃ acts s opened, r.run acts = some s ∧ s.runId = r.runId ∧
      s.Mirrors drawn none opened (runOperations world operations handles machine) := by
  obtain ⟨opened, hcourse⟩ := runOperations_course hworld.keeps (.inl trivial) operations handles
  obtain ⟨s, ⟨⟨acts, hacts⟩, -⟩, hmirrors⟩ := hcourse.mirrored hworld h
  have hrunId := hmirrors.runId.symm.trans (hcourse.steady.runId.trans h.runId)
  exact ⟨acts, s, opened, hacts, hrunId, hmirrors⟩

variable {store opened : Store F D} {header fresh : RunHeader F} {mode : RecordMode}
  {redactor : Redactor F D} {matchOn : List Matcher} {session : Session F D}

/-- The session of a new run is a recorder that begins. -/
theorem started_mirrors (drawn : W → Set Text) (outside : W)
    (hopen : openSession store none fresh mode redactor matchOn = some (session, opened))
    (hfresh : store.rowsOf fresh.runId = []) :
    (started fresh.runId redactor).Mirrors drawn none []
      ({ session, store := opened, outside } : Machine F D W) := by
  have hsession : session = Session.new fresh.runId mode redactor matchOn none none ∧
      opened = { store with runs := store.runs ++ [fresh] } := by
    simp only [openSession, ite_self] at hopen
    split at hopen
    · cases hopen
    · cases hopen
      exact ⟨rfl, rfl⟩
  obtain ⟨rfl, rfl⟩ := hsession
  constructor
  · rfl
  · rfl
  · rfl
  · intro calls hcalls
    cases hcalls
  · rfl
  · rfl
  · rfl
  · intro id hid
    cases hid
  · rfl
  · exact hfresh

/-- The session of a recorded run is a recorder that goes on with another session. -/
theorem reopened_mirrors (outside : W) (hrecorded : mode ≠ .all)
    (hopen : openSession store (some header) fresh mode redactor matchOn = some (session, opened))
    (hrunId : r.runId = header.runId)
    (hredactor : r.redactor = { redactor with enabled := header.redacted })
    (hminted : ∀ id ∈ r.minted, id ∈ drawn outside)
    (hnumbered : r.log = (r.log.map fun stored => stored.event).mapIdx
      fun seq event => ⟨r.runId, seq, event⟩)
    (hlogs : store.Logs r.runId (r.log.map fun stored => stored.event)) :
    ∃ s, r.step .session = some s ∧ s.Mirrors drawn none []
      ({ session, store := opened, outside } : Machine F D W) := by
  have hevents : store.events header.runId = some r.log := by
    rw [← hrunId, hlogs.events_numbered, ← hnumbered]
  simp only [openSession, if_neg hrecorded, hevents, Option.bind_eq_bind, Option.bind_some] at hopen
  cases hopen
  refine ⟨r.next .session, step_quiet rfl rfl, ?_⟩
  constructor
  · exact hrunId.symm
  · exact hredactor.symm
  · rfl
  · intro calls hcalls call hcall
    obtain rfl := Option.some.inj hcalls
    simp only [List.map_map, Function.comp_def, List.map_id', Option.elim_some,
      build_calls] at hcall
    obtain ⟨event, hevent, hmodel⟩ := List.mem_filterMap.mp hcall
    obtain ⟨stored, hstored, rfl⟩ := List.mem_map.mp hevent
    refine List.mem_filterMap.mpr ⟨stored, hstored, ?_⟩
    cases hcase : stored.event with
    | modelCall model =>
      rw [hcase] at hmodel
      cases hmodel
      rfl
    | _ =>
      rw [hcase] at hmodel
      cases hmodel
  · rfl
  · rfl
  · rfl
  · exact hminted
  · exact hnumbered
  · exact hlogs

/-- The log of a new session that does not redact is numbered, and no two model calls in it
have one id. -/
theorem session_log_consistent [DecidableEq D] (hworld : world.DrawsOnce drawn) (outside : W)
    (hopen : openSession store none fresh mode .disabled matchOn = some (session, opened))
    (hfresh : store.rowsOf fresh.runId = []) (operations : List (Operation F)) :
    ∃ s : Recorder F D, s.Consistent ∧
      (runOperations world operations []
        ({ session, store := opened, outside } : Machine F D W)).store.events fresh.runId =
        some s.log := by
  have hstart : Mirrors drawn (started fresh.runId .disabled) none
      (([] : List (StreamHandle F D)).flatMap StreamHandle.pending)
      ({ session, store := opened, outside } : Machine F D W) :=
    started_mirrors drawn outside hopen hfresh
  obtain ⟨acts, s, rest, hrun, hrunId, hmirrors⟩ :=
    runOperations_mirrored hworld operations hstart
  have hbegun : (started fresh.runId .disabled : Recorder F D).Begun := ⟨_, _, .inl rfl⟩
  refine ⟨s, hbegun.consistent.run rfl hrun, ?_⟩
  have hevents := hmirrors.events
  rw [hrunId] at hevents
  exact hevents

end Sessions

end Tracewake.Recording
