import Mathlib.Data.List.Basic
import Tracewake.Recording.StreamHandles

/-!
# The log of a run

What `events` reads back when events were appended one after the other, and what `_index`
makes of them: for every queue the recorded values in their order, for every tool call the
only recorded result, and the last outcome.
-/

namespace Tracewake.Recording

open JsonText

variable {F D : Type} [Python F]

/-! ## Rows -/

section Rows

variable [Sha256 D] [Pydantic F D]

omit [Python F] [Sha256 D] [Pydantic F D] in
/-- What is written element by element is read element by element. -/
theorem mapM_mapIdx {α β γ : Type} {write : ℕ → α → β} {read : β → Option γ} {kept : ℕ → α → γ}
    (h : ∀ i a, read (write i a) = some (kept i a)) (l : List α) :
    (l.mapIdx write).mapM read = some (l.mapIdx kept) := by
  induction l generalizing write kept with
  | nil => rfl
  | cons a l ih =>
    rw [List.mapIdx_cons, List.mapM_cons, h, List.mapIdx_cons,
      ih fun i a => h (i + 1) a]
    rfl

/-- The rows that appending writes for the events of a new run. -/
def eventRows (runId : Text) (events : List (Event F D)) : List EventRow :=
  events.mapIdx fun seq event => Store.row D runId seq event

/-- The rows of one more event end with its row. -/
theorem eventRows_append_singleton (runId : Text) (events : List (Event F D)) (event : Event F D) :
    eventRows runId (events ++ [event]) =
      eventRows runId events ++ [Store.row D runId events.length event] := by
  rw [eventRows, List.mapIdx_concat, eventRows]

/-- The rows of a run end with the number of its last event. -/
theorem foldl_eventRows (runId : Text) (events : List (Event F D)) :
    (eventRows runId events).foldl (fun seq row => max seq row.seq) (-1) + 1 = events.length := by
  induction events using List.reverseRecOn with
  | nil => rfl
  | append_singleton events event ih =>
    rw [eventRows_append_singleton, List.foldl_append, List.length_append]
    have hseq : (Store.row D runId events.length event).seq = events.length := rfl
    simp only [List.foldl_cons, List.foldl_nil, List.length_singleton, hseq]
    omega

/-- The store holds exactly these events of the run. -/
def Store.Logs (store : Store F D) (runId : Text) (events : List (Event F D)) : Prop :=
  store.rowsOf runId = eventRows runId events

namespace Store.Logs

variable {store : Store F D} {runId : Text} {events : List (Event F D)}

/-- The next number is the length of the log. -/
theorem nextSeq (h : store.Logs runId events) : store.nextSeq runId = events.length := by
  rw [Store.nextSeq, h]
  exact foldl_eventRows runId events

/-- Appending an event makes the log longer. -/
theorem append (h : store.Logs runId events) (event : Event F D) :
    (store.append runId event).Logs runId (events ++ [event]) := by
  rw [Store.Logs, eventRows_append_singleton, ← h, Store.append, h.nextSeq]
  simp [Store.rowsOf, Store.row]

/-- The rows are in order, and each of them is read back with its number. -/
theorem events_numbered (h : store.Logs runId events) : store.events runId =
    some (events.mapIdx fun seq event => (⟨runId, seq, event⟩ : StoredEvent F D)) := by
  have hsorted : Store.inOrder (eventRows runId events) = eventRows runId events := by
    rw [Store.inOrder]
    refine List.mergeSort_of_pairwise ?_
    rw [List.pairwise_iff_getElem]
    intro i j hi hj hlt
    simp only [eventRows, List.getElem_mapIdx, Store.row, decide_eq_true_eq]
    omega
  rw [Store.events, h, hsorted]
  exact mapM_mapIdx (fun seq event => Store.readRow_row runId seq event) events

/-- What is read back are the events that were appended. -/
theorem events_eq (h : store.Logs runId events) : ∃ stored : List (StoredEvent F D),
    store.events runId = some stored ∧ stored.map (fun e => e.event) = events := by
  refine ⟨_, h.events_numbered, ?_⟩
  have hkept : ∀ (seq : ℕ) (event : Event F D),
      (⟨runId, seq, event⟩ : StoredEvent F D).event = event := fun _ _ => rfl
  rw [map_mapIdx_of hkept, List.map_id']

end Store.Logs

end Rows

/-! ## Queues -/

/-- A queue of recorded values, or the uses of a path. -/
inductive Slot where
  | env (source : EnvironmentSource) (key : Option Text)
  | read (kind : ReadKind) (path : Text)
  | write (path : Text)
  deriving DecidableEq

/-- The queue that an event is appended to. -/
def Event.slot : Event F D → Option Slot
  | .environment event => some (.env event.source event.key)
  | .fsRead event => some (.read event.kind event.path)
  | .fsWrite event => some (.write event.path)
  | _ => none

/-- The call of a model in an event. -/
def Event.modelCall? : Event F D → Option (ModelCallEvent F)
  | .modelCall event => some event
  | _ => none

/-- The value that an event adds to a queue of the environment. -/
def Event.envAt (source : EnvironmentSource) (key : Option Text) :
    Event F D → Option (CanonicalValue F)
  | .environment event =>
    if (event.source, event.key) = (source, key) then some event.value else none
  | _ => none

/-- The read that an event adds to the reads of a path. -/
def Event.readAt (kind : ReadKind) (path : Text) : Event F D → Option (FsReadEvent F D)
  | .fsRead event => if (event.kind, event.path) = (kind, path) then some event else none
  | _ => none

/-- The write that an event adds to the writes of a path. -/
def Event.writeAt (path : Text) : Event F D → Option (FsWriteEvent F D)
  | .fsWrite event => if event.path = path then some event else none
  | _ => none

/-- The outcome in an event. -/
def Event.outcome? : Event F D → Option (OutcomeEvent F D)
  | .outcome event => some event
  | _ => none

/-- The key of a tool call's result. -/
def Event.toolKey? : Event F D → Option (Text × Text)
  | .toolCall event => some (event.parentCallId, event.toolCallId)
  | _ => none

/-- The last outcome of a log. -/
def lastOutcome (events : List (Event F D)) : Option (OutcomeEvent F D) :=
  (events.filterMap Event.outcome?).getLast?

/-- An index is built event by event. -/
theorem build_append_singleton (events : List (Event F D)) (event : Event F D) :
    Index.build (events ++ [event]) = (Index.build events).add event := by
  rw [Index.build, List.foldl_append, Index.build]
  rfl

/-- The calls are those of the log, in its order. -/
theorem build_calls (events : List (Event F D)) :
    (Index.build events).calls = events.filterMap Event.modelCall? := by
  induction events using List.reverseRecOn with
  | nil => rfl
  | append_singleton events event ih =>
    rw [build_append_singleton, List.filterMap_append, ← ih]
    cases event <;> simp [Index.add, Event.modelCall?]

/-- A queue of the environment holds the values of its events, in their order. -/
theorem build_env (events : List (Event F D)) (source : EnvironmentSource) (key : Option Text) :
    (Index.build events).env (source, key) = events.filterMap (Event.envAt source key) := by
  induction events using List.reverseRecOn with
  | nil => rfl
  | append_singleton events event ih =>
    rw [build_append_singleton, List.filterMap_append, ← ih]
    cases event with
    | environment event =>
      by_cases hslot : (event.source, event.key) = (source, key)
      · simp [Index.add, Event.envAt, hslot]
      · have hslot' : (source, key) ≠ (event.source, event.key) := fun h => hslot h.symm
        have hnone : Event.envAt (D := D) source key (.environment event) = none := if_neg hslot
        simp [Index.add, hnone, Function.update_of_ne hslot']
    | _ => simp [Index.add, Event.envAt]

/-- The reads of a path, in their order. -/
theorem build_reads (events : List (Event F D)) (kind : ReadKind) (path : Text) :
    (Index.build events).reads (kind, path) = events.filterMap (Event.readAt kind path) := by
  induction events using List.reverseRecOn with
  | nil => rfl
  | append_singleton events event ih =>
    rw [build_append_singleton, List.filterMap_append, ← ih]
    cases event with
    | fsRead event =>
      by_cases hslot : (event.kind, event.path) = (kind, path)
      · simp [Index.add, Event.readAt, hslot]
      · have hslot' : (kind, path) ≠ (event.kind, event.path) := fun h => hslot h.symm
        have hnone : Event.readAt kind path (.fsRead event) = none := if_neg hslot
        simp [Index.add, hnone, Function.update_of_ne hslot']
    | _ => simp [Index.add, Event.readAt]

/-- The writes of a path, in their order. -/
theorem build_writes (events : List (Event F D)) (path : Text) :
    (Index.build events).writes path = events.filterMap (Event.writeAt path) := by
  induction events using List.reverseRecOn with
  | nil => rfl
  | append_singleton events event ih =>
    rw [build_append_singleton, List.filterMap_append, ← ih]
    cases event with
    | fsWrite event =>
      by_cases hslot : event.path = path
      · simp [Index.add, Event.writeAt, hslot]
      · have hslot' : path ≠ event.path := fun h => hslot h.symm
        have hnone : Event.writeAt path (.fsWrite event) = none := if_neg hslot
        simp [Index.add, hnone, Function.update_of_ne hslot']
    | _ => simp [Index.add, Event.writeAt]

/-- The outcome is the last one of the log. -/
theorem build_outcome (events : List (Event F D)) :
    (Index.build events).outcome = lastOutcome events := by
  induction events using List.reverseRecOn with
  | nil => rfl
  | append_singleton events event ih =>
    rw [build_append_singleton, lastOutcome, List.filterMap_append]
    cases event with
    | outcome event => simp [Index.add, Event.outcome?]
    | _ => simpa [Index.add, Event.outcome?, lastOutcome] using ih

/-- No tool call is in the log twice. -/
def ToolsOnce (events : List (Event F D)) : Prop :=
  (events.filterMap Event.toolKey?).Nodup

instance (events : List (Event F D)) : Decidable (ToolsOnce events) :=
  inferInstanceAs (Decidable (List.Nodup _))

/-- A tool call that is in the log once is found by its key. -/
theorem build_toolCalls {events : List (Event F D)} (honce : ToolsOnce events)
    {call : ToolCallEvent F D} (hcall : .toolCall call ∈ events) :
    (Index.build events).toolCalls (call.parentCallId, call.toolCallId) = some call := by
  induction events using List.reverseRecOn with
  | nil => exact absurd hcall List.not_mem_nil
  | append_singleton events event ih =>
    rw [build_append_singleton]
    rw [ToolsOnce, List.filterMap_append] at honce
    rcases List.mem_append.mp hcall with hbefore | hlast
    · have hkept := ih (List.Nodup.of_append_left honce) hbefore
      cases event with
      | toolCall event =>
        have hne : (call.parentCallId, call.toolCallId) ≠
            (event.parentCallId, event.toolCallId) := by
          intro heq
          refine (List.disjoint_of_nodup_append honce) (List.mem_filterMap.mpr ⟨_, hbefore, rfl⟩) ?_
          simp [Event.toolKey?, heq]
        simpa only [Index.add, Function.update_of_ne hne] using hkept
      | _ => exact hkept
    · obtain rfl := List.mem_singleton.mp hlast
      simp [Index.add]

/-! ## Reads of the agent and of its tools -/

/-- No queue is used both by the agent itself and from inside a tool. -/
def Separate (events : List (Event F D)) : Prop :=
  ∀ a ∈ events, ∀ b ∈ events, a.slot.isSome = true → a.slot = b.slot →
    (a.toolCallId = none ↔ b.toolCallId = none)

instance (events : List (Event F D)) : Decidable (Separate events) :=
  inferInstanceAs (Decidable (∀ a ∈ events, ∀ b ∈ events, _))

/-- How often the agent itself used a queue. -/
def used (slot : Slot) (events : List (Event F D)) : ℕ :=
  events.countP fun event => event.slot = some slot ∧ event.toolCallId = none

/-- Slots are counted part by part. -/
theorem used_append (slot : Slot) (events more : List (Event F D)) :
    used slot (events ++ more) = used slot events + used slot more := List.countP_append

/-- An event of its own fills its slot once. -/
theorem used_own {event : Event F D} {slot : Slot} (hslot : event.slot = some slot)
    (hown : event.toolCallId = none) : used slot [event] = 1 := by
  simp [used, hslot, hown]

/-- An event of a tool, or one in another slot, does not fill the slot. -/
theorem used_other {event : Event F D} {slot : Slot}
    (hother : event.slot = some slot → event.toolCallId ≠ none) : used slot [event] = 0 := by
  simpa [used] using hother

/-- The queue of a slot is picked from the log by `pick`. -/
def Picks {α : Type} (slot : Slot) (pick : Event F D → Option α) : Prop :=
  ∀ event, (pick event).isSome = true ↔ event.slot = some slot

/-- An environment slot picks the events of its source and key. -/
theorem picks_env (source : EnvironmentSource) (key : Option Text) :
    Picks (F := F) (D := D) (.env source key) (Event.envAt source key) := by
  intro event
  cases event with
  | environment event =>
    simp only [Event.envAt, Event.slot, Option.some.injEq, Slot.env.injEq, ← Prod.mk.injEq]
    split <;> simp [*]
  | _ => simp [Event.envAt, Event.slot]

/-- A read slot picks the events of its kind and path. -/
theorem picks_read (kind : ReadKind) (path : Text) :
    Picks (F := F) (D := D) (.read kind path) (Event.readAt kind path) := by
  intro event
  cases event with
  | fsRead event =>
    simp only [Event.readAt, Event.slot, Option.some.injEq, Slot.read.injEq, ← Prod.mk.injEq]
    split <;> simp [*]
  | _ => simp [Event.readAt, Event.slot]

/-- A write slot picks the events of its path. -/
theorem picks_write (path : Text) :
    Picks (F := F) (D := D) (.write path) (Event.writeAt path) := by
  intro event
  cases event with
  | fsWrite event =>
    simp only [Event.writeAt, Event.slot, Option.some.injEq, Slot.write.injEq]
    split <;> simp [*]
  | _ => simp [Event.writeAt, Event.slot]

/-- Where the agent and its tools use different queues, the next value of a queue is the
one at the place that the agent has come to. -/
theorem queue_next {α : Type} {slot : Slot} {pick : Event F D → Option α} (hpick : Picks slot pick)
    {before after : List (Event F D)} {event : Event F D}
    (hseparate : Separate (before ++ event :: after)) (hown : event.toolCallId = none) {a : α}
    (ha : pick event = some a) :
    ((before ++ event :: after).filterMap pick)[used slot before]? = some a := by
  have hslot : event.slot = some slot := by
    rw [← hpick event, ha]
    rfl
  have hlength : (before.filterMap pick).length = used slot before := by
    rw [List.length_filterMap_eq_countP, used]
    refine List.countP_congr fun other hother => ?_
    rw [hpick other, decide_eq_true_iff]
    constructor
    · intro hsame
      refine ⟨hsame, ?_⟩
      rw [hseparate other (List.mem_append_left _ hother) event (by simp) (by rw [hsame]; rfl)
        (by rw [hsame, hslot])]
      exact hown
    · exact fun h => h.1
  rw [List.filterMap_append, List.filterMap_cons_some ha, List.getElem?_append_right (by omega),
    hlength, Nat.sub_self]
  rfl

end Tracewake.Recording
