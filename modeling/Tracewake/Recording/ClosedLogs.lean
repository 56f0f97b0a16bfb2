import Tracewake.Recording.Spans

/-!
# Logs that are closed under parents

A model call that a session answers is in the log of the run, or it is a stream that is not
consumed yet, or the matcher has served it. What a session records afterwards names one of
these as its parent. A fork serves the calls of another log, so it is only closed where
nothing is recorded under them.
-/

namespace Tracewake.Recording

open JsonText

variable {F D : Type} [Python F]

namespace Recorder

variable {r s : Recorder F D}

/-! ## Conditions on runs -/

/-- The tool calls in the log, by their parents and ids. -/
def toolIds (r : Recorder F D) : List (Text × Text) :=
  r.log.filterMap fun stored => stored.event.position.toolId

/-- A tool call is made under a model call that the session has answered. -/
def Answered (r : Recorder F D) : Act F D → Prop
  | .call _ parentCallId _ => parentCallId ∈ r.answered
  | _ => True

/-- The streams under which something is recorded are consumed. -/
def Drained (r : Recorder F D) : Prop :=
  ∀ e ∈ r.log, ∀ parent, e.event.parentCallId = some parent → parent ∉ r.handles

/-- A tool call that ends is not in the log already. -/
def Once (r : Recorder F D) : Act F D → Prop
  | .finish k _ => ∀ execution, r.executions[k]? = some execution →
    (execution.parentCallId, execution.request.id) ∉ r.toolIds
  | _ => True

variable [Sha256 D] [Pydantic F D]

/-- What is recorded keeps its ids, and has them for itself. -/
structure Sound (r : Recorder F D) (act : Act F D) : Prop where
  /-- The redactor leaves the ids. -/
  keeps : r.Keeps act
  /-- The hook drops no model call. -/
  calls : ∀ event within ends, r.made act = some (event, within, ends) →
    event.position.callId ≠ none → r.redactor.event event ≠ some none
  /-- What is recorded under a call that the matcher serves is in the log of that call. -/
  own : ∀ event within ends parent, r.made act = some (event, within, ends) →
    event.parentCallId = some parent → parent ∈ r.recorded → parent ∈ r.callIds
  /-- No tool call is recorded twice. -/
  once : Once r act
  /-- No session leaves a stream behind under which something is recorded. -/
  drained : act = .session → r.Drained

/-! ## What is known of parents -/

/-- A call that the session has answered. -/
def Known (r : Recorder F D) (callId : Text) : Prop :=
  callId ∈ r.callIds ∨ callId ∈ r.handles ∨ callId ∈ r.recorded

/-- The parents of what is recorded are calls that were answered. -/
structure Rooted (r : Recorder F D) : Prop where
  current : ∀ callId, r.currentCallId = some callId → Known r callId
  answered : ∀ callId ∈ r.answered, Known r callId
  executions : ∀ execution ∈ r.executions, execution.running = true →
    Known r execution.parentCallId
  log : ∀ e ∈ r.log, ∀ parent, e.event.parentCallId = some parent →
    parent ∈ r.callIds ∨ parent ∈ r.handles
  once : r.toolIds.Nodup

omit [Sha256 D] [Pydantic F D] in
/-- A recorder that has begun has a root. -/
theorem Begun.rooted (h : r.Begun) : r.Rooted := by
  obtain ⟨runId, redactor, rfl | ⟨source, -, rfl⟩⟩ := h <;>
    constructor <;> simp [started, forked, Recorder.log, toolIds]

omit [Sha256 D] [Pydantic F D] in
/-- The execution of a live scope is one that is running. -/
theorem executionOf_live {scope : Option ℕ} (hlive : r.isLive scope = true)
    {execution : Execution F} (h : r.executionOf scope = some execution) :
    execution ∈ r.executions ∧ execution.running = true := by
  obtain ⟨k, rfl, hk⟩ := Option.bind_eq_some_iff.mp h
  refine ⟨List.mem_of_getElem? hk, ?_⟩
  simpa [isLive, hk] using hlive

omit [Pydantic F D] in
/-- The parent of what a step makes is the current call, or that of a tool call. -/
theorem parent_of_made {act : Act F D} (hallowed : r.allows act = true) {event : Event F D}
    {within : List ℕ} {ends : Option ℕ} {parent : Text}
    (hmade : r.made act = some (event, within, ends))
    (hparent : event.parentCallId = some parent) : r.currentCallId = some parent ∨
      ∃ execution ∈ r.executions, execution.running = true ∧ execution.parentCallId = parent := by
  have hscope : ∀ scope eventMeta, r.isLive scope = true →
      (r.scopeFields scope eventMeta).parentCallId = some parent →
      r.currentCallId = some parent ∨ ∃ execution ∈ r.executions, execution.running = true ∧
        execution.parentCallId = parent := by
    intro scope eventMeta hlive hfield
    rcases Option.or_eq_some_iff.mp hfield with hown | ⟨-, hcurrent⟩
    · obtain ⟨execution, hexecution, hid⟩ :=
        Option.map_eq_some_iff.mp (Option.filter_eq_some_iff.mp hown).1
      obtain ⟨hmem, hrunning⟩ := executionOf_live hlive hexecution
      exact .inr ⟨execution, hmem, hrunning, hid⟩
    · exact .inl hcurrent
  cases act with
  | create scope model | finalize scope model | outcome scope value | envValue scope value =>
    obtain ⟨rfl, -, -⟩ := by simpa [made] using hmade
    exact .inl hparent
  | finish k outcome =>
    obtain ⟨execution, hexecution, hevent⟩ := Option.map_eq_some_iff.mp hmade
    obtain ⟨rfl, -, -⟩ := by simpa using hevent
    obtain ⟨hmem, hrunning⟩ :=
      executionOf_live hallowed (by simpa [executionOf] using hexecution)
    exact .inr ⟨execution, hmem, hrunning, Option.some.inj hparent⟩
  | read scope value | write scope value =>
    obtain ⟨rfl, -, -⟩ := by simpa [made] using hmade
    exact hscope scope value.eventMeta hallowed hparent
  | intervention value =>
    obtain ⟨rfl, -, -⟩ := by simpa [made] using hmade
    cases hparent
  | session | serve | stream | call | leave => cases hmade

/-! ## Steps -/

/-- What is known of a call stays known. -/
structure Grows (r s : Recorder F D) : Prop where
  calls : ∀ id ∈ r.callIds, id ∈ s.callIds
  handles : ∀ id ∈ r.handles, id ∈ s.callIds ∨ id ∈ s.handles
  recorded : s.recorded = r.recorded

omit [Sha256 D] [Pydantic F D] in
/-- Calls and handles that are known stay known. -/
theorem Grows.logged (h : Grows r s) {id : Text} (hid : id ∈ r.callIds ∨ id ∈ r.handles) :
    id ∈ s.callIds ∨ id ∈ s.handles := by
  rcases hid with hcall | hhandle
  · exact .inl (h.calls id hcall)
  · exact h.handles id hhandle

omit [Sha256 D] [Pydantic F D] in
/-- What is known stays known while the recorder grows. -/
theorem Grows.known (h : Grows r s) {id : Text} (hid : Known r id) : Known s id := by
  rcases hid with hcall | hhandle | hrecorded
  · exact .inl (h.calls id hcall)
  · rcases h.handles id hhandle with hcall | hhandle
    · exact .inl hcall
    · exact .inr (.inl hhandle)
  · exact .inr (.inr (by rwa [h.recorded]))

/-- A model call that is made is in the log. -/
theorem Sound.logged {act : Act F D} (h : Sound r act) (hstep : r.step act = some s)
    {event : Event F D} {within : List ℕ} {ends : Option ℕ} {id : Text}
    (hmade : r.made act = some (event, within, ends)) (hid : event.position.callId = some id) :
    id ∈ s.callIds := by
  obtain ⟨-, ⟨rfl, hdropped⟩ | ⟨other, within', ends', event', hmade', hredacted, rfl⟩⟩ :=
    step_cases hstep
  · exact absurd (hdropped _ _ _ hmade) (h.calls _ _ _ hmade (by simp [hid]))
  · obtain ⟨rfl, rfl, rfl⟩ : event = other ∧ within = within' ∧ ends = ends' := by
      simpa using hmade.symm.trans hmade'
    rw [callIds_push, h.keeps _ _ _ _ hmade' hredacted, hid]
    simp

/-- A step appends to the log, or leaves it. -/
theorem log_step {act : Act F D} (hstep : r.step act = some s) :
    (s.log = r.log ∨ ∃ event within ends event', r.made act = some (event, within, ends) ∧
      r.redactor.event event = some (some event') ∧
      s.log = r.log ++ [⟨r.runId, r.entries.length, event'⟩]) ∧
    s.currentCallId = (r.next act).currentCallId ∧ s.handles = (r.next act).handles ∧
    s.recorded = (r.next act).recorded ∧ s.answered = (r.next act).answered ∧
    s.executions = (r.next act).executions := by
  obtain ⟨-, ⟨rfl, -⟩ | ⟨event, within, ends, event', hmade, hredacted, rfl⟩⟩ := step_cases hstep
  · exact ⟨.inl (log_next act), rfl, rfl, rfl, rfl, rfl⟩
  · refine ⟨.inr ⟨event, within, ends, event', hmade, hredacted, ?_⟩, rfl, rfl, rfl, rfl, rfl⟩
    rw [log_push, log_next, next_entries]
    cases act <;> rfl

omit [Sha256 D] [Pydantic F D] in
/-- A log that is continued keeps its calls. -/
theorem callIds_of_log {log : List (StoredEvent F D)} (h : s.log = r.log ++ log) {id : Text}
    (hid : id ∈ r.callIds) : id ∈ s.callIds := by
  rw [callIds, h, List.filterMap_append]
  exact List.mem_append_left _ hid

/-- Within a session what is known of a call stays known. -/
theorem Sound.grows {act : Act F D} (h : Sound r act) (hstep : r.step act = some s)
    (hsession : act ≠ .session) : Grows r s := by
  obtain ⟨hlog, -, hhandles, hrecorded, -⟩ := log_step hstep
  have hcalls : ∀ id ∈ r.callIds, id ∈ s.callIds := by
    intro id hid
    rcases hlog with hsame | ⟨_, _, _, event', _, _, hpush⟩
    · exact callIds_of_log ((List.append_nil r.log).symm ▸ hsame) hid
    · exact callIds_of_log hpush hid
  refine ⟨hcalls, ?_, ?_⟩
  · intro id hid
    rw [hhandles]
    cases act with
    | session => exact absurd rfl hsession
    | stream callId => exact .inr (List.mem_cons_of_mem _ hid)
    | finalize scope model =>
      by_cases hsame : id = model.callId
      · exact .inl (h.logged hstep rfl (by rw [hsame]; rfl))
      · exact .inr ((List.mem_erase_of_ne hsame).mpr hid)
    | _ => exact .inr hid
  · rw [hrecorded]
    cases act with
    | session => exact absurd rfl hsession
    | _ => rfl

omit [Sha256 D] [Pydantic F D] in
/-- A tool call that runs after a step ran before it, or begins. -/
theorem running_next {act : Act F D} {execution : Execution F}
    (h : execution ∈ (r.next act).executions) (hrunning : execution.running = true) :
    (∃ earlier ∈ r.executions, earlier.running = true ∧
      earlier.parentCallId = execution.parentCallId) ∨
    ∃ scope request, act = .call scope execution.parentCallId request := by
  have hstop : ∀ j, execution ∈ r.stop j → ∃ earlier ∈ r.executions, earlier.running = true ∧
      earlier.parentCallId = execution.parentCallId := by
    intro j hmem
    obtain ⟨k, hk⟩ := List.mem_iff_getElem?.mp hmem
    rw [stop, List.getElem?_modify, Option.map_eq_map, Option.map_eq_some_iff] at hk
    obtain ⟨earlier, hearlier, hsame⟩ := hk
    split at hsame
    · rw [← hsame] at hrunning
      cases hrunning
    · rw [← hsame] at hrunning ⊢
      exact ⟨earlier, List.mem_of_getElem? hearlier, hrunning, rfl⟩
  cases act with
  | session =>
    obtain ⟨earlier, -, rfl⟩ := List.mem_map.mp h
    cases hrunning
  | call scope parentCallId request =>
    rcases List.mem_append.mp h with hold | hnew
    · exact .inl ⟨execution, hold, hrunning, rfl⟩
    · rw [List.mem_singleton.mp hnew]
      exact .inr ⟨scope, request, rfl⟩
  | finish j outcome => exact .inl (hstop j h)
  | leave j => exact .inl (hstop j h)
  | _ => exact .inl ⟨execution, h, hrunning, rfl⟩

omit [Sha256 D] [Pydantic F D] in
/-- A new event adds its tool to the tools of the log. -/
theorem toolIds_push {stored : StoredEvent F D} (h : s.log = r.log ++ [stored]) :
    s.toolIds = r.toolIds ++ stored.event.position.toolId.toList := by
  rw [toolIds, h, List.filterMap_append, ← toolIds]
  cases hid : stored.event.position.toolId <;> simp [hid]

omit [Pydantic F D] in
/-- Only the end of a tool call puts one into the log. -/
theorem toolId_of_made {act : Act F D} {event : Event F D} {within : List ℕ} {ends : Option ℕ}
    {parentCallId toolCallId : Text} {batchIndex : ℤ}
    (hmade : r.made act = some (event, within, ends))
    (hposition : event.position = .toolCall parentCallId toolCallId batchIndex) :
    ∃ k outcome execution, act = .finish k outcome ∧ r.executions[k]? = some execution ∧
      execution.parentCallId = parentCallId ∧ execution.request.id = toolCallId := by
  cases act with
  | finish k outcome =>
    obtain ⟨execution, hexecution, hevent⟩ := Option.map_eq_some_iff.mp hmade
    obtain ⟨rfl, -, -⟩ := by simpa using hevent
    obtain ⟨rfl, rfl, -⟩ := Position.toolCall.inj hposition
    exact ⟨k, outcome, execution, rfl, hexecution, rfl, rfl⟩
  | session | serve | stream | call | leave => cases hmade
  | _ =>
    obtain ⟨rfl, -, -⟩ := by simpa [made] using hmade
    cases hposition

/-- A sound step keeps the parents among the calls that were answered. -/
theorem Rooted.step (h : r.Rooted) {act : Act F D} (hanswered : r.Answered act)
    (hsound : Sound r act) (hstep : r.step act = some s) : s.Rooted := by
  obtain ⟨hallowed, -⟩ := step_cases hstep
  obtain ⟨hlog, hcurrent, hhandles, hrecorded, hanswers, hexecutions⟩ := log_step hstep
  have honce : s.toolIds.Nodup := by
    rcases hlog with hsame | ⟨event, within, ends, event', hmade, hredacted, hpush⟩
    · rw [toolIds, hsame, ← toolIds]
      exact h.once
    rw [toolIds_push hpush, hsound.keeps _ _ _ _ hmade hredacted]
    cases hposition : event.position with
    | toolCall parentCallId toolCallId batchIndex =>
      obtain ⟨k, outcome, execution, rfl, hexecution, rfl, rfl⟩ := toolId_of_made hmade hposition
      refine List.nodup_append.mpr ⟨h.once, List.nodup_singleton _, ?_⟩
      rintro ids hids _ hnew rfl
      rw [List.mem_singleton.mp hnew] at hids
      exact hsound.once execution hexecution hids
    | _ => simpa [Position.toolId] using h.once
  by_cases hsession : act = .session
  · subst hsession
    have hsame : s.log = r.log := by
      rcases hlog with hsame | ⟨_, _, _, _, hmade, _⟩
      · exact hsame
      · cases hmade
    refine ⟨?_, ?_, ?_, ?_, honce⟩
    · rw [hcurrent]
      exact fun callId hid => nomatch hid
    · rw [hanswers]
      exact fun callId hid => nomatch hid
    · rw [hexecutions]
      intro execution hmem hrunning
      obtain ⟨earlier, -, rfl⟩ := List.mem_map.mp hmem
      cases hrunning
    · intro e he parent hparent
      rw [hsame] at he
      rcases h.log e he parent hparent with hcall | hhandle
      · exact .inl (callIds_of_log ((List.append_nil r.log).symm ▸ hsame) hcall)
      · exact absurd hhandle (hsound.drained rfl e he parent hparent)
  have hgrows := hsound.grows hstep hsession
  refine ⟨?_, ?_, ?_, ?_, honce⟩
  · intro callId hid
    rw [hcurrent] at hid
    cases act with
    | session => exact absurd rfl hsession
    | serve served =>
      obtain rfl := Option.some.inj hid
      exact hgrows.known (.inr (.inr (of_decide_eq_true hallowed)))
    | create scope model =>
      obtain rfl := Option.some.inj hid
      exact .inl (hsound.logged hstep rfl rfl)
    | finalize scope model =>
      obtain rfl := Option.some.inj hid
      exact .inl (hsound.logged hstep rfl rfl)
    | _ => exact hgrows.known (h.current callId hid)
  · intro callId hid
    rw [hanswers] at hid
    cases act with
    | session => exact absurd rfl hsession
    | serve served =>
      rcases List.mem_cons.mp hid with rfl | hold
      · exact hgrows.known (.inr (.inr (of_decide_eq_true hallowed)))
      · exact hgrows.known (h.answered callId hold)
    | create scope model =>
      rcases List.mem_cons.mp hid with rfl | hold
      · exact .inl (hsound.logged hstep rfl rfl)
      · exact hgrows.known (h.answered callId hold)
    | stream opened =>
      rcases List.mem_cons.mp hid with rfl | hold
      · refine .inr (.inl ?_)
        rw [hhandles]
        exact List.mem_cons_self ..
      · exact hgrows.known (h.answered callId hold)
    | _ => exact hgrows.known (h.answered callId hid)
  · intro execution hmem hrunning
    rw [hexecutions] at hmem
    rcases running_next hmem hrunning with ⟨earlier, hearlier, hrun, hparent⟩ |
      ⟨scope, request, rfl⟩
    · rw [← hparent]
      exact hgrows.known (h.executions earlier hearlier hrun)
    · exact hgrows.known (h.answered _ hanswered)
  · intro e he parent hparent
    rcases hlog with hsame | ⟨event, within, ends, event', hmade, hredacted, hpush⟩
    · rw [hsame] at he
      exact hgrows.logged (h.log e he parent hparent)
    rw [hpush] at he
    rcases List.mem_append.mp he with hold | hnew
    · exact hgrows.logged (h.log e hold parent hparent)
    rw [List.mem_singleton.mp hnew, ← Event.parentCallId_position,
      hsound.keeps _ _ _ _ hmade hredacted, Event.parentCallId_position] at hparent
    have hknown : Known r parent := by
      rcases parent_of_made hallowed hmade hparent with hcall | ⟨execution, hmem, hrun, rfl⟩
      · exact h.current parent hcall
      · exact h.executions execution hmem hrun
    apply hgrows.logged
    rcases hknown with hcall | hhandle | hserved
    · exact .inl hcall
    · exact .inr hhandle
    · exact .inl (hsound.own _ _ _ parent hmade hparent hserved)

/-! ## The trace tree of a recorded run -/

section Keys

omit [Sha256 D] [Pydantic F D]

/-- Hexadecimal digits are no slash. -/
theorem slash_not_mem {id : Text} (h : Hex id) : '/' ∉ id := by
  intro hslash
  exact absurd (h.2 '/' hslash) (by decide)

/-- The key of a tool has a slash, so it is the key of no call. -/
theorem slash_mem_toolKey (parentCallId toolCallId : Text) :
    '/' ∈ toolKey parentCallId toolCallId := by
  simp [toolKey]

/-- The key of a tool call says which it is. -/
theorem toolKey_inj {parent parent' id id' : Text} (hparent : Hex parent) (hparent' : Hex parent')
    (h : toolKey parent id = toolKey parent' id') : parent = parent' ∧ id = id' := by
  rw [toolKey, toolKey, List.append_assoc, List.append_assoc] at h
  obtain ⟨rfl, hrest⟩ := List.append_inj h (hparent.1.trans hparent'.1.symm)
  exact ⟨rfl, List.append_cancel_left hrest⟩

/-- In a closed log a parent is a call of the log. -/
theorem mem_callIds_of_closed (hclosed : Closed r.log) {e : StoredEvent F D} (he : e ∈ r.log)
    {parent : Text} (hparent : e.event.parentCallId = some parent) : parent ∈ r.callIds := by
  obtain ⟨m, hm, model, hmodel, hcall⟩ := hclosed e he parent hparent
  refine List.mem_filterMap.mpr ⟨m, hm, ?_⟩
  rw [hmodel, ← hcall]
  rfl

/-- In a closed log of a recorder no two spans have one key. -/
theorem spanKeys_nodup (hids : r.Consistent) (honce : r.toolIds.Nodup)
    (hclosed : Closed r.log) : (spanKeys r.log).Nodup := by
  have hhex : ∀ id ∈ r.callIds, Hex id := fun id hid => hids.hex id (hids.calls id hid).1
  -- a key is the id of a model call, or that of a tool call under a model call
  have hkey : ∀ e ∈ r.log, ∀ key, e.event.position.spanKey = some key →
      (e.event.position.callId = some key ∧ Hex key) ∨
        ∃ parent id, e.event.position.toolId = some (parent, id) ∧ Hex parent ∧
          key = toolKey parent id := by
    intro e he key hspan
    cases hposition : e.event.position with
    | modelCall callId parent =>
      rw [hposition] at hspan
      obtain rfl := Option.some.inj hspan
      exact .inl ⟨rfl, hhex _ (List.mem_filterMap.mpr ⟨e, he, by rw [hposition]; rfl⟩)⟩
    | toolCall parent id batchIndex =>
      rw [hposition] at hspan
      obtain rfl := Option.some.inj hspan
      refine .inr ⟨parent, id, rfl, hhex _ (mem_callIds_of_closed hclosed he ?_), rfl⟩
      rw [← Event.parentCallId_position, hposition]
      rfl
    | other => simp [hposition, Position.spanKey] at hspan
  have hpairwise := (List.pairwise_filterMap.mp hids.distinct).and
    (List.pairwise_filterMap.mp honce)
  rw [spanKeys, List.nodup_cons]
  constructor
  · intro hrun
    obtain ⟨e, he, hspan⟩ := List.mem_filterMap.mp hrun
    rcases hkey e he _ hspan with ⟨-, hhexrun⟩ | ⟨parent, id, -, -, htool⟩
    · exact absurd hhexrun.1 (by decide)
    · have hslash := slash_mem_toolKey parent id
      rw [← htool] at hslash
      exact absurd hslash (by decide)
  · refine List.pairwise_filterMap.mpr (hpairwise.imp_of_mem ?_)
    rintro a b ha hb ⟨hcalls, htools⟩ key hkeya key' hkeyb rfl
    rcases hkey a ha key hkeya with ⟨hcall, hhexa⟩ | ⟨parent, id, htool, hhexa, rfl⟩
    · rcases hkey b hb key hkeyb with ⟨hcall', -⟩ | ⟨parent, id, -, -, rfl⟩
      · exact hcalls key hcall key hcall' rfl
      · exact slash_not_mem hhexa (slash_mem_toolKey parent id)
    · rcases hkey b hb _ hkeyb with ⟨-, hhexb⟩ | ⟨parent', id', htool', hhexb, hsame⟩
      · exact slash_not_mem hhexb (slash_mem_toolKey parent id)
      · obtain ⟨rfl, rfl⟩ := toolKey_inj hhexa hhexb hsame
        exact htools _ htool _ htool' rfl

end Keys

/-- The log of a run whose steps are sound is closed under parents, and exported as a tree. -/
theorem run_closed (H : Type) [Sha256 H] [Clock F] {acts : List (Act F D)} (hbegun : r.Begun)
    (hanswered : r.Meets Answered acts) (hsound : r.Meets Sound acts)
    (hrun : r.run acts = some s) (hdrained : s.Drained) (header : RunHeader F)
    (hcollision : CollisionFreeSpans H header.runId s.log) :
    Closed s.log ∧ Tree (buildSpans H header s.log) := by
  have hend : s.Consistent ∧ s.Rooted := by
    refine run_induction (P := fun r => r.Consistent ∧ r.Rooted) ?_
      ⟨hbegun.consistent, hbegun.rooted⟩ (hanswered.and hsound) hrun
    intro r act t hr hcondition hstep
    exact ⟨hr.1.step hcondition.2.keeps hstep, hr.2.step hcondition.1 hcondition.2 hstep⟩
  have hclosed : Closed s.log := by
    intro e he parent hparent
    rcases hend.2.log e he parent hparent with hcall | hhandle
    · obtain ⟨m, hm, hid⟩ := List.mem_filterMap.mp hcall
      refine ⟨m, hm, ?_⟩
      cases hevent : m.event with
      | modelCall model =>
        rw [hevent] at hid
        exact ⟨model, rfl, Option.some.inj hid⟩
      | _ => simp [hevent, Event.position, Position.callId] at hid
    · exact absurd hhandle (hdrained e he parent hparent)
  exact ⟨hclosed, buildSpans_tree H hclosed (spanKeys_nodup hend.1 hend.2.once hclosed) hcollision⟩

/-- Without redaction and a matcher a step is sound that does not end a tool call again. -/
theorem sound_of_recording {act : Act F D} (hredactor : r.redactor = .disabled)
    (hrecorded : r.recorded = []) (honce : Once r act) (hsession : act ≠ .session) :
    Sound r act where
  keeps := keeps_disabled hredactor act
  calls := by
    intro event within ends _ _ hdropped
    rw [hredactor] at hdropped
    cases hdropped
  own := by
    intro event within ends parent _ _ hserved
    rw [hrecorded] at hserved
    cases hserved
  once := honce
  drained := fun h => absurd h hsession

end Recorder

/-! A fork that serves a model call and runs its tool call, and a run that is recorded. -/

namespace Demo

/-- The fork of a run with one model call. -/
def fork : Recorder Decimal HexDigest := .forked "run".toList .disabled [minted '1']

def served : List (Act Decimal HexDigest) :=
  [.serve (minted '1'), .call none (minted '1') (request "a" 0), .finish 0 nothing]

/-- A model call and its tool call. -/
def called : List (Act Decimal HexDigest) :=
  [.create none (answer '1'), .call none (minted '1') (request "a" 0), .finish 0 nothing]

def forkEnd : Recorder Decimal HexDigest := (fork.run served).getD fork

def callEnd : Recorder Decimal HexDigest := (start.run called).getD start

/-- The first example runs. -/
theorem served_run : fork.run served = some forkEnd := rfl

/-- The second example runs. -/
theorem called_run : start.run called = some callEnd := rfl

/-- A digest of the bytes from the last one on. -/
structure LastBytes where
  digest : HexDigest

instance : Sha256 LastBytes where
  hex d := Sha256.hex d.digest
  ofHex text := (Sha256.ofHex text).map LastBytes.mk
  hash data := ⟨Sha256.hash data.reverse⟩
  ofHex_eq text d := by
    rw [Option.map_eq_some_iff, ← Sha256.ofHex_eq]
    constructor
    · rintro ⟨digest, hdigest, rfl⟩
      exact hdigest
    · exact fun h => ⟨d.digest, h, rfl⟩

/-- The times of a run in which all is done at once. -/
instance : Clock Decimal where
  isZero _ := true
  startOf time _ := time
  nanos _ := "0".toList
  latest time _ := time

def header : RunHeader Decimal where
  runId := "run".toList
  name := []
  startedAt := instant.recordedAt
  status := .ok

/-- In the second example no two spans have one identifier. -/
theorem called_collisionFree : CollisionFreeSpans LastBytes "run".toList callEnd.log := by
  unfold CollisionFreeSpans
  decide +kernel

end Demo

namespace Recorder

open Demo

/-- The parent of the tool call is in the log of the other run only. -/
theorem fork_not_closed : ¬ ∀ acts s, fork.Meets Answered acts → fork.run acts = some s →
    Closed s.log := by
  intro h
  have hanswered : fork.Meets Answered served :=
    .cons trivial rfl (.cons (List.mem_cons_self ..) rfl (.cons trivial rfl trivial))
  have hlog : ∃ e, forkEnd.log = [e] ∧ ∃ tool, e.event = .toolCall tool := ⟨_, rfl, _, rfl⟩
  obtain ⟨e, hlog, tool, hevent⟩ := hlog
  have hclosed := h served forkEnd hanswered served_run
  rw [hlog] at hclosed
  obtain ⟨m, hm, model, hmodel, -⟩ :=
    hclosed e (List.mem_singleton_self e) tool.parentCallId (by rw [hevent]; rfl)
  rw [List.mem_singleton.mp hm, hevent] at hmodel
  cases hmodel

/-- In the second example the log is closed and its spans are a tree. -/
theorem run_closed_called :
    Closed callEnd.log ∧ Tree (buildSpans LastBytes header callEnd.log) := by
  have hbegun : start.Begun := ⟨_, _, .inl rfl⟩
  refine run_closed LastBytes hbegun ?_ ?_ called_run ?_ header called_collisionFree
  · exact .cons trivial rfl (.cons (List.mem_cons_self ..) rfl (.cons trivial rfl trivial))
  · refine .cons ?_ rfl (.cons ?_ rfl (.cons ?_ rfl trivial))
    · exact sound_of_recording rfl rfl trivial (by simp)
    · exact sound_of_recording rfl rfl trivial (by simp)
    · refine sound_of_recording rfl rfl ?_ (by simp)
      intro execution _ hin
      cases hin
  · intro e _ parent _ hin
    cases hin

end Recorder

end Tracewake.Recording
