import Mathlib.Data.Finset.Union
import Mathlib.Logic.Function.Basic
import Tracewake.Recording.Recorder
import Tracewake.Traces.Reordering

/-!
# Steps of a run

The sequence that is aligned: the tool calls under one model call are one step. The events
are read in the order of the log. What the loop over them collects is described as lists of
what single events contribute, so that a reordering of the log can be followed through it.
-/

namespace Tracewake.Alignment

open JsonText Recording
open Results (lessCodePoints)

/-! ## Texts -/

/-- `str.isspace`. -/
def isSpace (c : Char) : Bool :=
  let n := c.toNat
  (9 ≤ n && n ≤ 13) || (28 ≤ n && n ≤ 32) || n = 0x85 || n = 0xa0 || n = 0x1680 ||
    (0x2000 ≤ n && n ≤ 0x200a) || n = 0x2028 || n = 0x2029 || n = 0x202f || n = 0x205f ||
    n = 0x3000

/-- `str.split`. -/
def split (text : Text) : List Text :=
  (text.splitOnP isSpace).filter fun word => word ≠ []

/-- `separator.join`. -/
def join (separator : Char) (texts : List Text) : Text :=
  [separator].intercalate texts

/-- `sorted(set(names))`. -/
def sortedSet (names : List Text) : List Text :=
  names.dedup.mergeSort fun a b => !lessCodePoints b a

/-! ## `extract_traces` -/

/-- `Step`. -/
structure Step (F : Type) where
  name : Text
  args : List (Text × Value F)
  target : Text := []
  reasoning : Text := []
  changedFiles : Finset (Text × Text) := ∅
  batchNames : List Text := []
  batchTargets : List Text := []
  writes : Finset Text := ∅
  observation : Text := []

/-- `Step.names`. -/
def Step.names {F : Type} (step : Step F) : Finset Text :=
  if step.batchNames ≠ [] then step.batchNames.toFinset else {step.name}

/-- `Step.targets`. -/
def Step.targets {F : Type} (step : Step F) : Finset Text :=
  if step.batchTargets ≠ [] then (step.batchTargets.filter fun target => target ≠ []).toFinset
  else if step.target ≠ [] then {step.target}
  else ∅

/-- `StepTrace`. -/
structure StepTrace (F D : Type) where
  step : Step F
  parentCallId : Text
  tools : List (ToolCallEvent F D)

variable {F D : Type} [Python F] [Sha256 D]

/-- `target_of`, of a value that can be written. -/
def targetOf (args : CanonicalMapping F) : Text :=
  match args.get? "path".toList with
  | some value => Python.str value
  | none =>
    match args.get? "query".toList with
    | some value => Python.str value
    | none => []

/-- What `target_of` writes can be written: for a longer integer it raises `ValueError`. -/
def Targeted (args : CanonicalMapping F) : Prop :=
  ∀ value ∈ (args.get? "path".toList).or (args.get? "query".toList), Printable value

instance (args : CanonicalMapping F) : Decidable (Targeted args) :=
  inferInstanceAs (Decidable (∀ value ∈ (args.get? "path".toList).or
    (args.get? "query".toList), Printable value))

/-- What the first loop of `extract_traces` collects. -/
structure Groups (F D : Type) where
  writesByTool : Text → List (Text × Text) := fun _ => []
  toolGroups : Text → Option (List (ToolCallEvent F D)) := fun _ => none
  groupOrder : List Text := []

/-- An id that is neither `None` nor empty. -/
def truthy (id : Option Text) : Option Text :=
  id.filter fun id => id ≠ []

/-- One round of the first loop. -/
def Groups.add (groups : Groups F D) (stored : StoredEvent F D) : Groups F D :=
  match stored.event with
  | .fsWrite write =>
    match truthy write.toolCallId with
    | some id =>
      { groups with
        writesByTool := Function.update groups.writesByTool id
          (groups.writesByTool id ++ [(write.path, Sha256.hex write.content.digest)]) }
    | none => groups
  | .toolCall tool =>
    let key := tool.parentCallId
    match groups.toolGroups key with
    | none =>
      { groups with
        toolGroups := Function.update groups.toolGroups key (some [tool])
        groupOrder := groups.groupOrder ++ [key] }
    | some tools =>
      { groups with toolGroups := Function.update groups.toolGroups key (some (tools ++ [tool])) }
  | _ => groups

/-- The first loop. -/
def groupEvents (events : List (StoredEvent F D)) : Groups F D :=
  events.foldl Groups.add {}

/-- The model call that an event is. -/
def modelOf (event : Event F D) : Option (ModelCallEvent F) :=
  match event with
  | .modelCall model => some model
  | _ => none

/-- The entry of an event in `models`. -/
def modelEntry (stored : StoredEvent F D) : Option (Text × ModelCallEvent F) :=
  (modelOf stored.event).map fun event => (event.callId, event)

/-- The tool calls of a group in the order of their batch. -/
def sortedTools (tools : List (ToolCallEvent F D)) : List (ToolCallEvent F D) :=
  tools.mergeSort fun a b => decide (a.batchIndex ≤ b.batchIndex)

/-- One tool call's writes, added to `changed` and `written`. -/
def addWrites (writesByTool : Text → List (Text × Text))
    (state : Finset (Text × Text) × Finset Text) (tool : ToolCallEvent F D) :
    Finset (Text × Text) × Finset Text :=
  let stepWrites := writesByTool tool.toolCallId
  (state.1 ∪ stepWrites.toFinset, state.2 ∪ (stepWrites.map Prod.fst).toFinset)

/-- The text of a model call with its white space made even. -/
def reasoningOf (parent : Option (ModelCallEvent F)) : Text :=
  match parent with
  | some event => if event.response.text ≠ [] then join ' ' (split event.response.text) else []
  | none => []

/-- The step of some tool calls. -/
def stepOf (tools : List (ToolCallEvent F D)) (reason : Text) (files : Finset (Text × Text))
    (written : Finset Text) : Step F :=
  match tools with
  | [tool] =>
    { name := tool.name, args := tool.args.fields, target := targetOf tool.args
      reasoning := reason, changedFiles := files, writes := written }
  | tools =>
    let names := tools.map fun tool => tool.name
    { name := join '+' (sortedSet names)
      args := [("batch".toList, list (fun tool => tool.args.value) tools)]
      reasoning := reason, changedFiles := files, batchNames := names
      batchTargets := tools.map fun tool => targetOf tool.args, writes := written }

/-- The second loop: `changed` grows from one group to the next. -/
def tracesFrom (models : Text → Option (ModelCallEvent F)) (groups : Groups F D)
    (changed : Finset (Text × Text)) : List Text → List (StepTrace F D) × Finset (Text × Text)
  | [] => ([], changed)
  | parentId :: rest =>
    let tools := sortedTools ((groups.toolGroups parentId).getD [])
    let (changed, written) := tools.foldl (addWrites groups.writesByTool) (changed, ∅)
    let step := stepOf tools (reasoningOf (models parentId)) changed written
    let (out, changed) := tracesFrom models groups changed rest
    (⟨step, parentId, tools⟩ :: out, changed)

/-- `extract_traces`. -/
def extractTraces (appendSubmit : Bool) (events : List (StoredEvent F D)) :
    List (StepTrace F D) :=
  let groups := groupEvents events
  let (out, changed) := tracesFrom (lastOf events modelEntry) groups ∅ groups.groupOrder
  if appendSubmit then
    out ++ [⟨{ name := "submit".toList, args := [], changedFiles := changed }, [], []⟩]
  else out

/-- `extract_steps`. -/
def extractSteps (appendSubmit : Bool) (events : List (StoredEvent F D)) : List (Step F) :=
  (extractTraces appendSubmit events).map fun trace => trace.step

/-! ## What single events contribute -/

/-- What an event adds to the writes of a tool call. -/
def writeOf (id : Text) (event : Event F D) : Option (Text × Text) :=
  match event with
  | .fsWrite write =>
    if truthy write.toolCallId = some id then some (write.path, Sha256.hex write.content.digest)
    else none
  | _ => none

/-- The tool call that an event is. -/
def toolOf (event : Event F D) : Option (ToolCallEvent F D) :=
  match event with
  | .toolCall tool => some tool
  | _ => none

/-- The tool calls of a batch that are in a log. -/
def batchOf (parent : Text) (events : List (StoredEvent F D)) : List (ToolCallEvent F D) :=
  events.filterMap fun stored =>
    (toolOf stored.event).filter fun tool => tool.parentCallId = parent

omit [Sha256 D] in
/-- The tool call of an event is the event's own. -/
theorem toolOf_eq_some {event : Event F D} {tool : ToolCallEvent F D} :
    toolOf event = some tool ↔ event = .toolCall tool := by
  cases event <;> simp [toolOf]

omit [Sha256 D] in
/-- The batch of a parent has the tool calls under it. -/
theorem mem_batchOf {parent : Text} {events : List (StoredEvent F D)} {tool : ToolCallEvent F D} :
    tool ∈ batchOf parent events ↔
      ∃ e ∈ events, tool.parentCallId = parent ∧ e.event = .toolCall tool := by
  simp only [batchOf, List.mem_filterMap, Option.filter_eq_some_iff, toolOf_eq_some,
    decide_eq_true_eq, and_comm]

local instance lawfulText : LawfulBEq Text := inferInstance

/-- Keys in the order in which they come first. -/
def firsts (keys : List Text) : List Text :=
  keys.foldl (fun seen key => if key ∈ seen then seen else seen ++ [key]) []

/-- Listing first occurrences loses no key. -/
theorem mem_firsts {keys : List Text} {key : Text} : key ∈ firsts keys ↔ key ∈ keys := by
  induction keys using List.reverseRecOn with
  | nil => simp [firsts]
  | append_singleton keys last ih =>
    rw [firsts, List.foldl_append, ← firsts, List.mem_append, List.mem_singleton, ← ih]
    simp only [List.foldl_cons, List.foldl_nil]
    split
    · next hseen =>
      constructor
      · exact Or.inl
      · rintro (hkey | rfl)
        · exact hkey
        · exact hseen
    · simp

/-- One more event is added to the groups of the others. -/
theorem groupEvents_append (events : List (StoredEvent F D)) (stored : StoredEvent F D) :
    groupEvents (events ++ [stored]) = (groupEvents events).add stored := by
  rw [groupEvents, List.foldl_append]
  rfl

/-- The first loop collects the writes of every tool call. -/
theorem groupEvents_writesByTool (events : List (StoredEvent F D)) (id : Text) :
    (groupEvents events).writesByTool id = events.filterMap fun e => writeOf id e.event := by
  induction events using List.reverseRecOn with
  | nil => rfl
  | append_singleton events stored ih =>
    rw [groupEvents_append, List.filterMap_append, ← ih]
    cases hevent : stored.event with
    | fsWrite write =>
      cases hid : truthy write.toolCallId with
      | none => simp [Groups.add, hevent, hid, writeOf]
      | some own =>
        by_cases hsame : own = id
        · subst hsame
          simp [Groups.add, hevent, hid, writeOf]
        · simp [Groups.add, hevent, hid, writeOf, hsame, Ne.symm hsame]
    | toolCall tool =>
      simp only [Groups.add, hevent]
      split <;> simp [writeOf, hevent]
    | _ => simp [Groups.add, hevent, writeOf]

/-- The first loop collects the tool calls of every batch. -/
theorem groupEvents_toolGroups (events : List (StoredEvent F D)) (parent : Text) :
    (groupEvents events).toolGroups parent =
      if batchOf parent events = [] then none else some (batchOf parent events) := by
  induction events using List.reverseRecOn with
  | nil => rfl
  | append_singleton events stored ih =>
    rw [groupEvents_append, batchOf, List.filterMap_append, ← batchOf]
    cases hevent : stored.event with
    | fsWrite write =>
      simp only [Groups.add, hevent]
      split <;> simpa [toolOf, hevent] using ih
    | toolCall tool =>
      by_cases hsame : tool.parentCallId = parent
      · subst hsame
        by_cases hempty : batchOf tool.parentCallId events = []
        · rw [if_pos hempty] at ih
          simp [Groups.add, hevent, ih, toolOf, hempty, Option.filter_some]
        · rw [if_neg hempty] at ih
          simp [Groups.add, hevent, ih, toolOf, Option.filter_some]
      · simp only [Groups.add, hevent]
        split <;> simpa [toolOf, hevent, hsame, Function.update_of_ne (Ne.symm hsame)] using ih
    | _ => simpa [Groups.add, hevent, toolOf] using ih

/-- The parents of the tool calls in a log. -/
def parents (events : List (StoredEvent F D)) : List Text :=
  events.filterMap fun stored => (toolOf stored.event).map fun tool => tool.parentCallId

omit [Sha256 D] in
/-- A batch is empty exactly if no tool call has the parent. -/
theorem batchOf_eq_nil {events : List (StoredEvent F D)} {parent : Text} :
    batchOf parent events = [] ↔ parent ∉ parents events := by
  simp only [batchOf, parents, List.filterMap_eq_nil_iff, List.mem_filterMap,
    Option.filter_eq_none_iff, Option.map_eq_some_iff, not_exists, not_and, decide_eq_true_eq]

/-- The groups come in the order of their first tool calls. -/
theorem groupEvents_groupOrder (events : List (StoredEvent F D)) :
    (groupEvents events).groupOrder = firsts (parents events) := by
  induction events using List.reverseRecOn with
  | nil => rfl
  | append_singleton events stored ih =>
    rw [groupEvents_append, parents, List.filterMap_append, ← parents, firsts, List.foldl_append,
      ← firsts, ← ih]
    cases hevent : stored.event with
    | fsWrite write =>
      simp only [Groups.add, hevent]
      split <;> simp [toolOf, hevent]
    | toolCall tool =>
      have hgroup := groupEvents_toolGroups events tool.parentCallId
      by_cases hseen : tool.parentCallId ∈ parents events
      · rw [if_neg fun hempty => batchOf_eq_nil.mp hempty hseen] at hgroup
        have hin : tool.parentCallId ∈ (groupEvents events).groupOrder := by
          rw [ih]
          exact mem_firsts.mpr hseen
        simp [Groups.add, hevent, hgroup, toolOf, hin]
      · rw [if_pos (batchOf_eq_nil.mpr hseen)] at hgroup
        have hout : tool.parentCallId ∉ (groupEvents events).groupOrder := by
          rw [ih]
          exact fun hin => hseen (mem_firsts.mp hin)
        simp [Groups.add, hevent, hgroup, toolOf, hout]
    | _ => simp [Groups.add, hevent, toolOf]

omit [Sha256 D] in
/-- Traces depend only on the models, the writes and the sorted batches. -/
theorem tracesFrom_congr {models models' : Text → Option (ModelCallEvent F)}
    {groups groups' : Groups F D} (hmodels : models = models')
    (hwrites : groups.writesByTool = groups'.writesByTool)
    (htools : ∀ parent, sortedTools ((groups.toolGroups parent).getD []) =
      sortedTools ((groups'.toolGroups parent).getD [])) (changed : Finset (Text × Text))
    (order : List Text) :
    tracesFrom models groups changed order = tracesFrom models' groups' changed order := by
  induction order generalizing changed with
  | nil => rfl
  | cons parent rest ih =>
    subst hmodels
    simp only [tracesFrom, htools parent, hwrites, ih]

/-- Logs with the same contributions have the same traces. -/
theorem extractTraces_congr {events events' : List (StoredEvent F D)} (appendSubmit : Bool)
    (hmodels : events.filterMap modelEntry = events'.filterMap modelEntry)
    (hwrites : ∀ id, (events.filterMap fun e => writeOf id e.event) =
      events'.filterMap fun e => writeOf id e.event)
    (hparents : parents events = parents events')
    (htools : ∀ parent,
      sortedTools (batchOf parent events) = sortedTools (batchOf parent events')) :
    extractTraces appendSubmit events = extractTraces appendSubmit events' := by
  have hgroups : ∀ (log : List (StoredEvent F D)) (parent : Text),
      ((groupEvents log).toolGroups parent).getD [] = batchOf parent log := by
    intro log parent
    rw [groupEvents_toolGroups]
    split
    · next hempty => rw [hempty, Option.getD_none]
    · rw [Option.getD_some]
  have hlast : lastOf events modelEntry = lastOf events' modelEntry := by
    funext key
    rw [lastOf, hmodels, ← lastOf]
  have htraces : tracesFrom (lastOf events modelEntry) (groupEvents events) ∅
      (groupEvents events).groupOrder = tracesFrom (lastOf events' modelEntry)
      (groupEvents events') ∅ (groupEvents events').groupOrder := by
    rw [groupEvents_groupOrder, groupEvents_groupOrder, hparents]
    refine tracesFrom_congr hlast ?_ ?_ _ _
    · funext id
      rw [groupEvents_writesByTool, groupEvents_writesByTool, hwrites id]
    · intro parent
      rw [hgroups, hgroups, htools parent]
  rw [extractTraces, extractTraces, htraces]

end Tracewake.Alignment
