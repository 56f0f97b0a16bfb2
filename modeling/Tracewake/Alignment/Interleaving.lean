import Tracewake.Alignment.Steps
import Tracewake.Recording.Strict

/-!
# Interleavings of a parallel batch

The tool calls of a batch run concurrently, so their events are logged in the order in
which they happen to finish. Two logs of one run differ in the order of events of different
tool calls. The canonical order, the digest and the steps of the run are the same.
-/

namespace Tracewake.Alignment

open JsonText Recording
open Traces (Reordering mergeSort_eq_of_perm)

variable {F D : Type} [Python F]

/-! ## Logs -/

/-- The tool call in which an event is made. -/
def owner (event : Event F D) : Option Text :=
  match event with
  | .toolCall tool => some tool.toolCallId
  | event => truthy event.toolCallId

/-- Model calls and the events outside tools. -/
def Outside (event : Event F D) : Prop :=
  (modelOf event).isSome ∨ owner event = none

/-- The shape of what the recorder logs. -/
structure Recorded (events : List (StoredEvent F D)) : Prop where
  increasing : events.Pairwise fun a b => a.seq < b.seq
  /-- The ids of model calls are drawn by `uuid4`. -/
  calls : ∀ e ∈ events, ∀ model, e.event = .modelCall model → model.callId ≠ []
  /-- The ids of tool calls are unique. -/
  unique : ∀ e ∈ events, ∀ e' ∈ events, ∀ tool tool', e.event = .toolCall tool →
    e'.event = .toolCall tool' → tool.toolCallId = tool'.toolCallId → e = e'
  /-- Batch indexes are distinct within a batch. -/
  distinct : ∀ e ∈ events, ∀ e' ∈ events, ∀ tool tool', e.event = .toolCall tool →
    e'.event = .toolCall tool' → tool.parentCallId = tool'.parentCallId →
    tool.batchIndex = tool'.batchIndex → e = e'
  /-- The events in a tool call end with the tool call and have its parent. -/
  inside : ∀ e ∈ events, ∀ id, owner e.event = some id →
    ∃ e' ∈ events, ∃ tool, e'.event = .toolCall tool ∧ tool.toolCallId = id ∧
      e.event.parentCallId = some tool.parentCallId ∧ e.seq ≤ e'.seq
  /-- Their parent is a model call before them. -/
  parent : ∀ e ∈ events, ∀ id, owner e.event = some id →
    ∃ e' ∈ events, ∃ model, e'.event = .modelCall model ∧
      e.event.parentCallId = some model.callId ∧ e'.seq < e.seq

/-- A tool call of the log that has the batch index of the events outside tools. -/
def Unplaced (events : List (StoredEvent F D)) (id : Text) : Prop :=
  ∃ e ∈ events, ∃ tool, e.event = .toolCall tool ∧ tool.toolCallId = id ∧ tool.batchIndex = -1

/-- Events whose order is the same in all logs of a run. Only the events of concurrent
tool calls of a batch may change places. -/
inductive Fixed (events : List (StoredEvent F D)) (a b : Event F D) : Prop
  | outside : Outside a → Outside b → Fixed events a b
  | own {id : Text} : owner a = some id → owner b = some id → Fixed events a b
  | batches {tool tool' : ToolCallEvent F D} : a = .toolCall tool → b = .toolCall tool' →
      tool.parentCallId ≠ tool'.parentCallId → Fixed events a b
  | before {id : Text} : Outside a → owner b = some id → Unplaced events id → Fixed events a b
  | after {id : Text} : owner a = some id → Unplaced events id → Outside b → Fixed events a b

/-- Two logs of the same events. `matching` pairs an event with itself in the other log. -/
structure Interleaving (matching : List (StoredEvent F D × StoredEvent F D))
    (events events' : List (StoredEvent F D)) : Prop where
  left : matching.map Prod.fst = events
  right : (matching.map Prod.snd).Perm events'
  same : ∀ p ∈ matching, p.1.event = p.2.event
  increasing : events'.Pairwise fun a b => a.seq < b.seq
  kept : matching.Pairwise fun p q => Fixed events p.1.event q.1.event → p.2.seq < q.2.seq

/-- Events of different tool calls of a batch may change places. -/
theorem not_fixed {events : List (StoredEvent F D)} {a b : Event F D} {id id' : Text}
    (ha : owner a = some id) (hb : owner b = some id') (hne : id ≠ id')
    (hparent : a.parentCallId = b.parentCallId) (hmodel : modelOf a = none)
    (hmodel' : modelOf b = none) : ¬ Fixed events a b := by
  have hinside : ∀ {event : Event F D} {own : Text}, owner event = some own →
      modelOf event = none → ¬ Outside event := by
    intro event own howner hmodel houtside
    rcases houtside with hsome | hnone
    · simp [hmodel] at hsome
    · simp [howner] at hnone
  intro hfixed
  cases hfixed with
  | outside houtside _ => exact hinside ha hmodel houtside
  | own hid hid' => exact hne (Option.some.inj (ha.symm.trans (hid.trans (hid'.symm.trans hb))))
  | batches htool htool' hparents =>
    subst htool htool'
    exact hparents (Option.some.inj hparent)
  | before houtside _ _ => exact hinside ha hmodel houtside
  | after _ _ houtside => exact hinside hb hmodel' houtside

/-! ## Dictionaries -/

/-- The last entry under a key comes from an element of the list. -/
theorem lastOf_mem {α β : Type} {entries : List α} {entry : α → Option (Text × β)} {key : Text}
    {value : β} (h : lastOf entries entry key = some value) :
    ∃ a ∈ entries, entry a = some (key, value) := by
  obtain ⟨e, he, hvalue⟩ := List.exists_of_findSome?_eq_some h
  obtain ⟨a, ha, hentry⟩ := List.mem_filterMap.mp (List.mem_reverse.mp he)
  split at hvalue
  · next hkey =>
    obtain rfl := Option.some.inj hvalue
    subst hkey
    exact ⟨a, ha, hentry⟩
  · cases hvalue

/-- A key of some element has a last entry. -/
theorem lastOf_isSome {α β : Type} {entries : List α} {entry : α → Option (Text × β)} {a : α}
    {key : Text} {value : β} (ha : a ∈ entries) (hentry : entry a = some (key, value)) :
    ∃ last, lastOf entries entry key = some last := by
  rw [← Option.isSome_iff_exists, lastOf, List.findSome?_isSome_iff]
  exact ⟨(key, value), List.mem_reverse.mpr (List.mem_filterMap.mpr ⟨a, ha, hentry⟩), by simp⟩

/-- When a key has only one value it does not matter which entry is the last. -/
theorem lastOf_eq_some {α β : Type} {entries : List α} {entry : α → Option (Text × β)} {a : α}
    {key : Text} {value : β} (ha : a ∈ entries) (hentry : entry a = some (key, value))
    (hunique : ∀ b ∈ entries, ∀ other, entry b = some (key, other) → other = value) :
    lastOf entries entry key = some value := by
  obtain ⟨last, hlast⟩ := lastOf_isSome ha hentry
  obtain ⟨b, hb, hother⟩ := lastOf_mem hlast
  rw [hlast, hunique b hb last hother]

/-- A dictionary with one value for each key does not depend on the order of its entries. -/
theorem lastOf_perm {α β : Type} {entries entries' : List α} {entry : α → Option (Text × β)}
    (hperm : (entries.filterMap entry).Perm (entries'.filterMap entry))
    (hunique : ∀ a ∈ entries.filterMap entry, ∀ b ∈ entries.filterMap entry, a.1 = b.1 → a = b) :
    lastOf entries entry = lastOf entries' entry := by
  funext key
  cases hlast : lastOf entries' entry key with
  | none =>
    cases hfound : lastOf entries entry key with
    | none => rfl
    | some value =>
      obtain ⟨a, ha, hentry⟩ := lastOf_mem hfound
      obtain ⟨b, hb, hentry'⟩ :=
        List.mem_filterMap.mp (hperm.mem_iff.mp (List.mem_filterMap.mpr ⟨a, ha, hentry⟩))
      obtain ⟨last, hsome⟩ := lastOf_isSome hb hentry'
      cases hlast.symm.trans hsome
  | some value =>
    obtain ⟨a, ha, hentry⟩ := lastOf_mem hlast
    have hin := hperm.mem_iff.mpr (List.mem_filterMap.mpr ⟨a, ha, hentry⟩)
    obtain ⟨b, hb, hentry'⟩ := List.mem_filterMap.mp hin
    refine lastOf_eq_some hb hentry' fun c hc other hother => ?_
    exact congrArg Prod.snd (hunique _ (List.mem_filterMap.mpr ⟨c, hc, hother⟩) _ hin rfl)

/-- The last entry of a mapped list is the mapped last entry, if the map keeps the keys. -/
theorem lastOf_map {α α' β β' : Type} (entries : List α) (f : α → α') (g : β → β')
    {entry : α → Option (Text × β)} {entry' : α' → Option (Text × β')} (key : Text)
    (h : ∀ a ∈ entries, entry' (f a) = (entry a).map fun e => (e.1, g e.2)) :
    lastOf (entries.map f) entry' key = (lastOf entries entry key).map g := by
  have hentries : (entries.map f).filterMap entry' =
      (entries.filterMap entry).map fun e => (e.1, g e.2) := by
    rw [List.filterMap_map, List.map_filterMap]
    exact List.filterMap_congr h
  rw [lastOf, lastOf, hentries, ← List.map_reverse, List.findSome?_map, List.map_findSome?]
  refine congrArg (fun find => List.findSome? find _) (funext fun e => ?_)
  simp only [Function.comp_apply]
  split <;> rfl

/-! ## Reading two logs -/

variable {events events' : List (StoredEvent F D)}
  {matching : List (StoredEvent F D × StoredEvent F D)}

namespace Interleaving

/-- The pairs in the order of the other log. -/
theorem exists_reordering (h : Interleaving matching events events') :
    ∃ matching', matching'.map Prod.snd = events' ∧
      Reordering (fun p q => Fixed events p.1.event q.1.event) (fun p q => p.2.seq < q.2.seq)
        matching matching' := by
  obtain ⟨matching', hright, hperm⟩ :=
    (congrFun (congrFun (List.eq_map_comp_perm Prod.snd) events') matching).mpr h.right.symm
  refine ⟨matching', hright.symm, hperm.symm, h.kept, ?_⟩
  have hincreasing := h.increasing
  rwa [hright, List.pairwise_map] at hincreasing

/-- What is read off events of a fixed order is the same in both logs. -/
theorem filterMap_eq {β : Type} (h : Interleaving matching events events')
    (g : StoredEvent F D × StoredEvent F D → Option β)
    (hfixed : ∀ p q, ∀ x ∈ g p, ∀ y ∈ g q, x ≠ y → Fixed events p.1.event q.1.event) :
    ∃ matching', matching'.map Prod.snd = events' ∧ matching.Perm matching' ∧
      matching.filterMap g = matching'.filterMap g := by
  obtain ⟨matching', hright, hreordering⟩ := h.exists_reordering
  refine ⟨matching', hright, hreordering.perm, ?_⟩
  apply hreordering.filterMap_eq
  · intro p q hpq hqp
    omega
  · intro p _ q _
    exact hfixed p q

/-- The same for what is read off an event alone. -/
theorem contributions_eq {β : Type} (h : Interleaving matching events events')
    (g : Event F D → Option β)
    (hfixed : ∀ a b, ∀ x ∈ g a, ∀ y ∈ g b, x ≠ y → Fixed events a b) :
    (events.filterMap fun e => g e.event) = events'.filterMap fun e => g e.event := by
  obtain ⟨matching', hright, hperm, hread⟩ :=
    h.filterMap_eq (fun p => g p.1.event) fun p q => hfixed p.1.event q.1.event
  calc (events.filterMap fun e => g e.event)
      = matching.filterMap fun p => g p.1.event := by rw [← h.left, List.filterMap_map]; rfl
    _ = matching'.filterMap fun p => g p.1.event := hread
    _ = matching'.filterMap fun p => g p.2.event := by
      refine List.filterMap_congr fun p hp => ?_
      rw [h.same p (hperm.mem_iff.mpr hp)]
    _ = events'.filterMap fun e => g e.event := by rw [← hright, List.filterMap_map]; rfl

/-- What the events contribute one by one is the same up to its order. -/
theorem perm_contributions {β : Type} (h : Interleaving matching events events')
    (g : Event F D → Option β) :
    (events.filterMap fun e => g e.event).Perm (events'.filterMap fun e => g e.event) := by
  have hleft : (events.filterMap fun e => g e.event) =
      (matching.map Prod.snd).filterMap fun e => g e.event := by
    rw [← h.left, List.filterMap_map, List.filterMap_map]
    refine List.filterMap_congr fun p hp => ?_
    simp only [Function.comp_apply, h.same p hp]
  rw [hleft]
  exact h.right.filterMap _

/-! ## Steps -/

/-- The model calls of both logs are the same in the same order. -/
theorem models_eq (h : Interleaving matching events events') :
    events.filterMap modelEntry = events'.filterMap modelEntry := by
  refine h.contributions_eq (fun event => (modelOf event).map fun model => (model.callId, model)) ?_
  intro a b x hx y hy _
  obtain ⟨model, hmodel, -⟩ := Option.map_eq_some_iff.mp hx
  obtain ⟨model', hmodel', -⟩ := Option.map_eq_some_iff.mp hy
  exact .outside (Or.inl (by rw [hmodel]; rfl)) (Or.inl (by rw [hmodel']; rfl))

/-- The parents of both logs come in the same order. -/
theorem parents_eq (h : Interleaving matching events events') :
    parents events = parents events' := by
  refine h.contributions_eq (fun event => (toolOf event).map fun tool => tool.parentCallId) ?_
  intro a b x hx y hy hne
  obtain ⟨tool, htool, rfl⟩ := Option.map_eq_some_iff.mp hx
  obtain ⟨tool', htool', rfl⟩ := Option.map_eq_some_iff.mp hy
  exact .batches (toolOf_eq_some.mp htool) (toolOf_eq_some.mp htool') hne

/-- The tool calls of a batch are sorted alike. -/
theorem sortedTools_eq (hrecorded : Recorded events) (h : Interleaving matching events events')
    (parent : Text) : sortedTools (batchOf parent events) = sortedTools (batchOf parent events') := by
  refine mergeSort_eq_of_perm (γ := ℤ) (h.perm_contributions fun event =>
    (toolOf event).filter fun tool => tool.parentCallId = parent) ?_ ?_
  · intro a _ b _ hle
    exact hle
  · intro a ha b hb heq
    obtain ⟨e, he, hparent, hevent⟩ := mem_batchOf.mp ha
    obtain ⟨e', he', hparent', hevent'⟩ := mem_batchOf.mp hb
    obtain rfl := hrecorded.distinct e he e' he' a b hevent hevent' (hparent.trans hparent'.symm) heq
    exact Event.toolCall.inj (hevent.symm.trans hevent')

section Steps

variable [Sha256 D]

/-- The writes of one tool come in the same order in both logs. -/
theorem writes_eq (h : Interleaving matching events events') (id : Text) :
    (events.filterMap fun e => writeOf id e.event) =
      events'.filterMap fun e => writeOf id e.event := by
  have howner : ∀ event x, writeOf id event = some x → owner (F := F) (D := D) event = some id := by
    intro event x hx
    cases event with
    | fsWrite write =>
      simp only [writeOf] at hx
      split at hx
      · next hid => exact hid
      · cases hx
    | _ => cases hx
  refine h.contributions_eq (writeOf id) ?_
  intro a b x hx y hy _
  exact .own (howner a x hx) (howner b y hy)

/-- Both logs have the same traces. Each reads the model calls, the writes and the batches,
and batches are sorted. -/
theorem extractTraces_eq (hrecorded : Recorded events) (h : Interleaving matching events events')
    (appendSubmit : Bool) :
    extractTraces appendSubmit events = extractTraces appendSubmit events' :=
  extractTraces_congr appendSubmit h.models_eq h.writes_eq h.parents_eq
    (h.sortedTools_eq hrecorded)

end Steps

/-! ## The canonical order -/

/-- The pairs are in the order of the first log. -/
theorem increasing_left (hrecorded : Recorded events) (h : Interleaving matching events events') :
    matching.Pairwise fun p q => p.1.seq < q.1.seq := by
  have hincreasing := hrecorded.increasing
  rwa [← h.left, List.pairwise_map] at hincreasing

/-- Events of a fixed order are in the same order in both logs. -/
theorem lt_of_fixed (hrecorded : Recorded events) (h : Interleaving matching events events')
    {p q : StoredEvent F D × StoredEvent F D} (hp : p ∈ matching) (hq : q ∈ matching)
    (hfixed : Fixed events p.1.event q.1.event) (hlt : p.1.seq < q.1.seq) : p.2.seq < q.2.seq := by
  have hall : ∀ ⦃p⦄, p ∈ matching → ∀ ⦃q⦄, q ∈ matching →
      (Fixed events p.1.event q.1.event → p.1.seq < q.1.seq → p.2.seq < q.2.seq) := by
    apply List.Pairwise.forall_of_forall_of_flip
    · intro p _ _ hlt
      omega
    · exact h.kept.imp fun hkept hfixed _ => hkept hfixed
    · refine (h.increasing_left hrecorded).imp ?_
      intro p q hincreasing _ hlt
      omega
  exact hall hp hq hfixed hlt

/-- In the first log a sequence number names one event. -/
theorem eq_of_seq_left (hrecorded : Recorded events) (h : Interleaving matching events events')
    {p q : StoredEvent F D × StoredEvent F D} (hp : p ∈ matching) (hq : q ∈ matching)
    (hseq : p.1.seq = q.1.seq) : p = q := by
  have hnodup : (matching.map fun p => p.1.seq).Nodup := by
    rw [List.nodup_iff_pairwise_ne, List.pairwise_map]
    exact (h.increasing_left hrecorded).imp fun hlt => by omega
  exact List.inj_on_of_nodup_map hnodup hp hq hseq

/-- Where sequence numbers increase none occurs twice. -/
theorem nodup_seq {l : List (StoredEvent F D)} (h : l.Pairwise fun a b => a.seq < b.seq) :
    (l.map fun e => e.seq).Nodup := by
  rw [List.nodup_iff_pairwise_ne, List.pairwise_map]
  exact h.imp fun hlt => by omega

/-- In the second log a sequence number names one event. -/
theorem eq_of_seq_right (h : Interleaving matching events events')
    {p q : StoredEvent F D × StoredEvent F D} (hp : p ∈ matching) (hq : q ∈ matching)
    (hseq : p.2.seq = q.2.seq) : p = q := by
  have hnodup : (matching.map fun p => p.2.seq).Nodup := by
    have hright := (h.right.map fun e => e.seq).nodup_iff.mpr (nodup_seq h.increasing)
    rwa [List.map_map] at hright
  exact List.inj_on_of_nodup_map hnodup hp hq hseq

end Interleaving

/-! The sort key of an event is the event its group is counted from, its place among the
events of the group, and what breaks ties. -/

/-- The entry of an event in `seq_of_call`. -/
def seqEntry (e : StoredEvent F D) : Option (Text × ℤ) :=
  (modelOf e.event).map fun model => (model.callId, e.seq)

/-- The entry of an event in `batch_of_tool`. -/
def batchEntry (e : StoredEvent F D) : Option (Text × ℤ) :=
  (toolOf e.event).map fun tool => (tool.toolCallId, tool.batchIndex)

/-- The number of an event's group. -/
def groupSeq (events : List (StoredEvent F D)) (e : StoredEvent F D) : ℤ :=
  match e.event with
  | .modelCall _ => e.seq
  | event => ((truthy event.parentCallId).bind (lastOf events seqEntry)).getD e.seq

/-- The place of an event in its group. -/
def place (events : List (StoredEvent F D)) (event : Event F D) : List ℤ :=
  match event with
  | .modelCall _ => [0, 0, 0]
  | .toolCall tool => [1, tool.batchIndex, 1]
  | event => [1, ((truthy event.toolCallId).bind (lastOf events batchEntry)).getD (-1), 0]

/-- What breaks ties. -/
def tie (e : StoredEvent F D) : ℤ :=
  match e.event with
  | .modelCall _ => 0
  | _ => e.seq

/-- The key of an event begins with its group and ends with its tie. -/
theorem orderKey_eq (events : List (StoredEvent F D)) (e : StoredEvent F D) :
    orderKey events e = groupSeq events e :: (place events e.event ++ [tie e]) := by
  have hseq : (fun e : StoredEvent F D => match e.event with
      | .modelCall event => some (event.callId, e.seq)
      | _ => none) = seqEntry := by
    funext e
    unfold seqEntry
    cases e.event <;> rfl
  have hbatch : (fun e : StoredEvent F D => match e.event with
      | .toolCall event => some (event.toolCallId, event.batchIndex)
      | _ => none) = batchEntry := by
    funext e
    unfold batchEntry
    cases e.event <;> rfl
  unfold orderKey groupSeq place tie
  rw [← hseq, ← hbatch]
  cases e.event <;> rfl

/-- The model call with an id, as a pair. -/
def callEntry (p : StoredEvent F D × StoredEvent F D) :
    Option (Text × (StoredEvent F D × StoredEvent F D)) :=
  (modelOf p.1.event).map fun model => (model.callId, p)

/-- The pair from which the group of an event is counted. -/
def anchor (matching : List (StoredEvent F D × StoredEvent F D))
    (p : StoredEvent F D × StoredEvent F D) : StoredEvent F D × StoredEvent F D :=
  match p.1.event with
  | .modelCall _ => p
  | event => ((truthy event.parentCallId).bind (lastOf matching callEntry)).getD p

/-- A default may be taken before or after a map. -/
theorem bind_getD_map {α β γ : Type} (o : Option α) (f : α → Option β) (g : β → γ) (b : β) :
    (o.bind fun a => (f a).map g).getD (g b) = g ((o.bind f).getD b) := by
  cases o with
  | none => rfl
  | some a => cases hf : f a <;> simp [hf]

/-- A text that is not empty counts as true. -/
theorem truthy_some {id : Text} (h : id ≠ []) : truthy (some id) = some id := by
  simp [truthy, Option.filter_some, h]

/-- What counts as true is the text itself. -/
theorem truthy_eq_some {o : Option Text} {id : Text} (h : truthy o = some id) : o = some id :=
  (Option.filter_eq_some_iff.mp h).1

/-- The model call of an event is the event's own. -/
theorem modelOf_eq_some {event : Event F D} {model : ModelCallEvent F} :
    modelOf event = some model ↔ event = .modelCall model := by
  cases event <;> simp [modelOf]

/-- A model call is its own anchor. -/
theorem anchor_modelCall {p : StoredEvent F D × StoredEvent F D} {model : ModelCallEvent F}
    (hevent : p.1.event = .modelCall model) : anchor matching p = p := by
  simp [anchor, hevent]

/-- The anchor of an event under a model call is that call. -/
theorem anchor_of_parent {p x : StoredEvent F D × StoredEvent F D} {parent : Text}
    (hmodel : modelOf p.1.event = none) (hparent : truthy p.1.event.parentCallId = some parent)
    (hcall : lastOf matching callEntry parent = some x) : anchor matching p = x := by
  unfold anchor
  split
  · next hevent => simp [hevent, modelOf] at hmodel
  · rw [hparent, Option.bind_some, hcall, Option.getD_some]

/-- The pair of a call is found by its identifier. -/
theorem lastOf_callEntry {key : Text} {x : StoredEvent F D × StoredEvent F D}
    (h : lastOf matching callEntry key = some x) :
    x ∈ matching ∧ ∃ model, x.1.event = .modelCall model ∧ model.callId = key := by
  obtain ⟨p, hp, hentry⟩ := lastOf_mem h
  obtain ⟨model, hmodel, heq⟩ := Option.map_eq_some_iff.mp hentry
  obtain ⟨rfl, rfl⟩ := Prod.mk.inj heq
  exact ⟨hp, model, modelOf_eq_some.mp hmodel, rfl⟩

namespace Interleaving

/-- What is matched is in the first log. -/
theorem mem_events (h : Interleaving matching events events')
    {p : StoredEvent F D × StoredEvent F D} (hp : p ∈ matching) : p.1 ∈ events := by
  rw [← h.left]
  exact List.mem_map_of_mem hp

/-- Every event of the first log is matched. -/
theorem exists_pair (h : Interleaving matching events events') {e : StoredEvent F D}
    (he : e ∈ events) : ∃ p ∈ matching, p.1 = e := by
  rw [← h.left] at he
  exact List.mem_map.mp he

/-- The group of an event is the number of its anchor in the first log. -/
theorem groupSeq_left (h : Interleaving matching events events')
    (p : StoredEvent F D × StoredEvent F D) :
    groupSeq events p.1 = (anchor matching p).1.seq := by
  have hlast : lastOf events seqEntry =
      fun key => (lastOf matching callEntry key).map fun p => p.1.seq := by
    funext key
    rw [← h.left]
    refine lastOf_map matching Prod.fst _ key fun p _ => ?_
    simp only [seqEntry, callEntry, Option.map_map]
    rfl
  unfold groupSeq anchor
  split
  · rfl
  · rw [hlast, bind_getD_map _ _ fun p : StoredEvent F D × StoredEvent F D => p.1.seq]

/-- The group of an event is the number of its anchor in the second log. -/
theorem groupSeq_right (h : Interleaving matching events events')
    {p : StoredEvent F D × StoredEvent F D} (hp : p ∈ matching) :
    groupSeq events' p.2 = (anchor matching p).2.seq := by
  obtain ⟨matching', hright, hperm, hread⟩ := h.filterMap_eq callEntry <| by
    intro p q x hx y hy _
    obtain ⟨model, hmodel, -⟩ := Option.map_eq_some_iff.mp hx
    obtain ⟨model', hmodel', -⟩ := Option.map_eq_some_iff.mp hy
    exact .outside (Or.inl (by rw [hmodel]; rfl)) (Or.inl (by rw [hmodel']; rfl))
  have hcall : lastOf matching callEntry = lastOf matching' callEntry := by
    funext key
    rw [lastOf, hread, ← lastOf]
  have hlast : lastOf events' seqEntry =
      fun key => (lastOf matching callEntry key).map fun p => p.2.seq := by
    funext key
    rw [← hright, hcall]
    refine lastOf_map matching' Prod.snd _ key fun p hp => ?_
    simp only [seqEntry, callEntry, Option.map_map, ← h.same p (hperm.mem_iff.mpr hp)]
    rfl
  unfold groupSeq anchor
  rw [← h.same p hp]
  split
  · rfl
  · rw [hlast, bind_getD_map _ _ fun p : StoredEvent F D × StoredEvent F D => p.2.seq]

/-- An event in a tool call is counted from its parent. -/
theorem anchor_of_owner (hrecorded : Recorded events) (h : Interleaving matching events events')
    {p : StoredEvent F D × StoredEvent F D} (hp : p ∈ matching)
    (hmodel : modelOf p.1.event = none) {id : Text} (howner : owner p.1.event = some id) :
    anchor matching p ∈ matching ∧ ∃ model, (anchor matching p).1.event = .modelCall model ∧
      p.1.event.parentCallId = some model.callId := by
  obtain ⟨e, he, model, hevent, hparent, -⟩ := hrecorded.parent p.1 (h.mem_events hp) id howner
  obtain ⟨q, hq, rfl⟩ := h.exists_pair he
  have hentry : callEntry q = some (model.callId, q) := by simp [callEntry, hevent, modelOf]
  obtain ⟨x, hx⟩ := lastOf_isSome hq hentry
  obtain ⟨hmem, found, hfound, hid⟩ := lastOf_callEntry hx
  have htruthy : truthy p.1.event.parentCallId = some model.callId := by
    rw [hparent, truthy_some (hrecorded.calls q.1 he model hevent)]
  rw [anchor_of_parent hmodel htruthy hx]
  exact ⟨hmem, found, hfound, hparent.trans (congrArg some hid.symm)⟩

/-- Groups are counted from model calls and from events outside tools. -/
theorem anchor_outside (hrecorded : Recorded events) (h : Interleaving matching events events')
    {p : StoredEvent F D × StoredEvent F D} (hp : p ∈ matching) :
    anchor matching p ∈ matching ∧ Outside (anchor matching p).1.event := by
  cases hmodel : modelOf p.1.event with
  | some model =>
    rw [anchor_modelCall (modelOf_eq_some.mp hmodel)]
    exact ⟨hp, Or.inl (by rw [hmodel]; rfl)⟩
  | none =>
    cases howner : owner p.1.event with
    | some id =>
      obtain ⟨hmem, model, hevent, -⟩ := h.anchor_of_owner hrecorded hp hmodel howner
      exact ⟨hmem, Or.inl (by rw [hevent]; rfl)⟩
    | none =>
      unfold anchor
      split
      · next hevent => simp [hevent, modelOf] at hmodel
      · cases hcall : (truthy p.1.event.parentCallId).bind (lastOf matching callEntry) with
        | none => exact ⟨hp, Or.inr howner⟩
        | some x =>
          obtain ⟨parent, -, hx⟩ := Option.bind_eq_some_iff.mp hcall
          obtain ⟨hmem, model, hevent, -⟩ := lastOf_callEntry hx
          exact ⟨hmem, Or.inl (by rw [Option.getD_some, hevent]; rfl)⟩

/-- A tool call is found under its id. -/
theorem lastOf_batchEntry (hrecorded : Recorded events) {e : StoredEvent F D} (he : e ∈ events)
    {tool : ToolCallEvent F D} (hevent : e.event = .toolCall tool) :
    lastOf events batchEntry tool.toolCallId = some tool.batchIndex := by
  refine lastOf_eq_some he (by simp [batchEntry, hevent, toolOf]) fun e' he' other hother => ?_
  obtain ⟨tool', htool', heq⟩ := Option.map_eq_some_iff.mp hother
  obtain ⟨hid, rfl⟩ := Prod.mk.inj heq
  have hevent' := toolOf_eq_some.mp htool'
  obtain rfl := hrecorded.unique e' he' e he tool' tool hevent' hevent hid
  rw [Event.toolCall.inj (hevent'.symm.trans hevent)]

/-- Events have the same place in both logs. -/
theorem place_eq (hrecorded : Recorded events) (h : Interleaving matching events events')
    (event : Event F D) : place events' event = place events event := by
  have hbatch : lastOf events batchEntry = lastOf events' batchEntry := by
    have hperm : (events.filterMap batchEntry).Perm (events'.filterMap batchEntry) := by
      have hread := h.perm_contributions fun event =>
        (toolOf event).map fun tool => (tool.toolCallId, tool.batchIndex)
      exact hread
    refine lastOf_perm hperm ?_
    intro x hx y hy hkey
    obtain ⟨e, he, hentry⟩ := List.mem_filterMap.mp hx
    obtain ⟨e', he', hentry'⟩ := List.mem_filterMap.mp hy
    obtain ⟨tool, htool, rfl⟩ := Option.map_eq_some_iff.mp hentry
    obtain ⟨tool', htool', rfl⟩ := Option.map_eq_some_iff.mp hentry'
    obtain rfl := hrecorded.unique e he e' he' tool tool' (toolOf_eq_some.mp htool)
      (toolOf_eq_some.mp htool') hkey
    rw [Option.some.inj (htool.symm.trans htool')]
  unfold place
  rw [hbatch]

/-- The batch index of the tool call in which an event is made. -/
theorem exists_batchIndex (hrecorded : Recorded events)
    (h : Interleaving matching events events') {p : StoredEvent F D × StoredEvent F D}
    (hp : p ∈ matching) {id : Text} (howner : owner p.1.event = some id) :
    ∃ e ∈ events, ∃ tool, e.event = .toolCall tool ∧ tool.toolCallId = id ∧
      p.1.event.parentCallId = some tool.parentCallId ∧
      lastOf events batchEntry id = some tool.batchIndex := by
  obtain ⟨e, he, tool, hevent, rfl, hparent, -⟩ := hrecorded.inside p.1 (h.mem_events hp) id howner
  exact ⟨e, he, tool, hevent, rfl, hparent, lastOf_batchEntry hrecorded he hevent⟩

/-- Two events of a group are children of the same model call. -/
theorem parent_eq_of_anchor (hrecorded : Recorded events)
    (h : Interleaving matching events events') {p q : StoredEvent F D × StoredEvent F D}
    (hp : p ∈ matching) (hq : q ∈ matching) (hanchor : anchor matching p = anchor matching q)
    (hmodel : modelOf p.1.event = none) (hmodel' : modelOf q.1.event = none) {id id' : Text}
    (howner : owner p.1.event = some id) (howner' : owner q.1.event = some id') :
    p.1.event.parentCallId = q.1.event.parentCallId := by
  obtain ⟨-, model, hevent, hparent⟩ := h.anchor_of_owner hrecorded hp hmodel howner
  obtain ⟨-, model', hevent', hparent'⟩ := h.anchor_of_owner hrecorded hq hmodel' howner'
  rw [hanchor, hevent'] at hevent
  rw [hparent, hparent', Event.modelCall.inj hevent]

/-- Events that are neither model calls nor tool calls. -/
def Inner (event : Event F D) : Prop :=
  modelOf event = none ∧ toolOf event = none

/-- The place of an inner event is given by the tool that owns it. -/
theorem place_inner {event : Event F D} (hinner : Inner event) :
    place events event = [1, ((owner event).bind (lastOf events batchEntry)).getD (-1), 0] := by
  obtain ⟨hmodel, htool⟩ := hinner
  cases event with
  | modelCall model => cases hmodel
  | toolCall tool => cases htool
  | _ => rfl

/-- An event is a model call, a tool call or an inner event. -/
theorem event_cases (event : Event F D) :
    (∃ model, event = .modelCall model) ∨ (∃ tool, event = .toolCall tool) ∨ Inner event := by
  cases event with
  | modelCall model => exact Or.inl ⟨model, rfl⟩
  | toolCall tool => exact Or.inr (Or.inl ⟨tool, rfl⟩)
  | _ => exact Or.inr (Or.inr ⟨rfl, rfl⟩)

/-- Without a model call the tie is the sequence number. -/
theorem tie_of_not_model {e : StoredEvent F D} (hmodel : modelOf e.event = none) :
    tie e = e.seq := by
  unfold tie
  split
  · next hevent => simp [hevent, modelOf] at hmodel
  · rfl

/-- Inner events of a group with the same place are in a fixed order. -/
theorem fixed_of_inner (hrecorded : Recorded events) (h : Interleaving matching events events')
    {p q : StoredEvent F D × StoredEvent F D} (hp : p ∈ matching) (hq : q ∈ matching)
    (hanchor : anchor matching p = anchor matching q) (hinner : Inner p.1.event)
    (hinner' : Inner q.1.event) (hplace : place events p.1.event = place events q.1.event) :
    Fixed events p.1.event q.1.event := by
  rw [place_inner hinner, place_inner hinner'] at hplace
  simp only [List.cons.injEq, and_true, true_and] at hplace
  cases howner : owner p.1.event with
  | none =>
    cases howner' : owner q.1.event with
    | none => exact .outside (Or.inr howner) (Or.inr howner')
    | some id' =>
      obtain ⟨e', he', tool', hevent', hid', -, hbatch'⟩ := h.exists_batchIndex hrecorded hq howner'
      rw [howner, howner', Option.bind_none, Option.bind_some, hbatch'] at hplace
      exact .before (Or.inr howner) howner' ⟨e', he', tool', hevent', hid', hplace.symm⟩
  | some id =>
    obtain ⟨e, he, tool, hevent, hid, hparent, hbatch⟩ := h.exists_batchIndex hrecorded hp howner
    cases howner' : owner q.1.event with
    | none =>
      rw [howner, howner', Option.bind_none, Option.bind_some, hbatch] at hplace
      exact .after howner ⟨e, he, tool, hevent, hid, hplace⟩ (Or.inr howner')
    | some id' =>
      obtain ⟨e', he', tool', hevent', hid', hparent', hbatch'⟩ :=
        h.exists_batchIndex hrecorded hq howner'
      have hparents := h.parent_eq_of_anchor hrecorded hp hq hanchor hinner.1 hinner'.1 howner howner'
      rw [howner, howner', Option.bind_some, Option.bind_some, hbatch, hbatch'] at hplace
      rw [hparent, hparent'] at hparents
      obtain rfl := hrecorded.distinct e he e' he' tool tool' hevent hevent'
        (Option.some.inj hparents) hplace
      obtain rfl := Event.toolCall.inj (hevent.symm.trans hevent')
      exact .own howner (howner'.trans (congrArg some (hid'.symm.trans hid)))

/-- Events of a group with the same place: only their order in the log tells them apart, and
it is fixed. -/
theorem eq_or_fixed (hrecorded : Recorded events) (h : Interleaving matching events events')
    {p q : StoredEvent F D × StoredEvent F D} (hp : p ∈ matching) (hq : q ∈ matching)
    (hanchor : anchor matching p = anchor matching q)
    (hplace : place events p.1.event = place events q.1.event) :
    p = q ∨ modelOf p.1.event = none ∧ modelOf q.1.event = none ∧
      Fixed events p.1.event q.1.event := by
  rcases event_cases p.1.event with ⟨model, hevent⟩ | ⟨tool, hevent⟩ | hinner <;>
    rcases event_cases q.1.event with ⟨model', hevent'⟩ | ⟨tool', hevent'⟩ | hinner'
  · left
    rwa [anchor_modelCall hevent, anchor_modelCall hevent'] at hanchor
  · simp [hevent, hevent', place] at hplace
  · rw [place_inner hinner', hevent] at hplace
    simp [place] at hplace
  · simp [hevent, hevent', place] at hplace
  · left
    have hbatch : tool.batchIndex = tool'.batchIndex := by
      simpa [hevent, hevent', place] using hplace
    have hparents := h.parent_eq_of_anchor hrecorded hp hq hanchor (by rw [hevent]; rfl)
      (by rw [hevent']; rfl) (by rw [hevent]; rfl) (by rw [hevent']; rfl)
    rw [hevent, hevent'] at hparents
    have heq := hrecorded.distinct p.1 (h.mem_events hp) q.1 (h.mem_events hq) tool tool' hevent
      hevent' (Option.some.inj hparents) hbatch
    exact h.eq_of_seq_left hrecorded hp hq (congrArg _ heq)
  · rw [place_inner hinner', hevent] at hplace
    simp [place] at hplace
  · rw [place_inner hinner, hevent'] at hplace
    simp [place] at hplace
  · rw [place_inner hinner, hevent'] at hplace
    simp [place] at hplace
  · right
    exact ⟨hinner.1, hinner'.1, h.fixed_of_inner hrecorded hp hq hanchor hinner hinner' hplace⟩

end Interleaving

/-- A place has three entries. -/
theorem length_place (events : List (StoredEvent F D)) (event : Event F D) :
    (place events event).length = 3 := by
  unfold place
  split <;> rfl

/-- Lists are compared by their heads first. -/
theorem cons_le_cons {a b : ℤ} {l l' : List ℤ} :
    a :: l ≤ b :: l' ↔ a < b ∨ a = b ∧ l ≤ l' := by
  rw [le_iff_lt_or_eq, le_iff_lt_or_eq, List.cons_lt_cons_iff, List.cons.injEq]
  tauto

/-- Lists of one length are compared before what follows them. -/
theorem append_le_append {l l' : List ℤ} (hlength : l.length = l'.length) (t t' : ℤ) :
    l ++ [t] ≤ l' ++ [t'] ↔ l < l' ∨ l = l' ∧ t ≤ t' := by
  induction l generalizing l' with
  | nil =>
    obtain rfl := List.eq_nil_of_length_eq_zero hlength.symm
    simp [le_iff_lt_or_eq, List.cons_lt_cons_iff]
  | cons a l ih =>
    cases l' with
    | nil => simp at hlength
    | cons b l' =>
      simp only [List.length_cons, Nat.add_right_cancel_iff] at hlength
      rw [List.cons_append, List.cons_append, cons_le_cons, ih hlength,
        List.cons_lt_cons_iff, List.cons.injEq]
      tauto

/-- Sort keys are compared by group, by place and by what breaks ties. -/
theorem orderKey_le (log : List (StoredEvent F D)) (e e' : StoredEvent F D) :
    orderKey log e ≤ orderKey log e' ↔ groupSeq log e < groupSeq log e' ∨
      groupSeq log e = groupSeq log e' ∧ (place log e.event < place log e'.event ∨
        place log e.event = place log e'.event ∧ tie e ≤ tie e') := by
  rw [orderKey_eq, orderKey_eq, cons_le_cons,
    append_le_append ((length_place log e.event).trans (length_place log e'.event).symm)]

namespace Interleaving

/-- The events of two logs are compared alike. -/
theorem orderKey_mono (hrecorded : Recorded events) (h : Interleaving matching events events')
    {p q : StoredEvent F D × StoredEvent F D} (hp : p ∈ matching) (hq : q ∈ matching)
    (hle : orderKey events p.1 ≤ orderKey events q.1) :
    orderKey events' p.2 ≤ orderKey events' q.2 := by
  obtain ⟨hanchor, houtside⟩ := h.anchor_outside hrecorded hp
  obtain ⟨hanchor', houtside'⟩ := h.anchor_outside hrecorded hq
  rw [orderKey_le, h.groupSeq_left, h.groupSeq_left] at hle
  rw [orderKey_le, h.groupSeq_right hp, h.groupSeq_right hq, h.place_eq hrecorded,
    h.place_eq hrecorded, ← h.same p hp, ← h.same q hq]
  rcases hle with hlt | ⟨hgroup, hrest⟩
  · exact Or.inl (h.lt_of_fixed hrecorded hanchor hanchor' (.outside houtside houtside') hlt)
  · have heq := h.eq_of_seq_left hrecorded hanchor hanchor' hgroup
    refine Or.inr ⟨by rw [heq], ?_⟩
    rcases hrest with hlt | ⟨hplace, htie⟩
    · exact Or.inl hlt
    · refine Or.inr ⟨hplace, ?_⟩
      rcases h.eq_or_fixed hrecorded hp hq heq hplace with rfl | ⟨hmodel, hmodel', hfixed⟩
      · exact le_rfl
      · rw [tie_of_not_model hmodel, tie_of_not_model hmodel'] at htie
        rw [h.same p hp] at hmodel
        rw [h.same q hq] at hmodel'
        rw [tie_of_not_model hmodel, tie_of_not_model hmodel']
        rcases lt_or_eq_of_le htie with hlt | hseq
        · exact (h.lt_of_fixed hrecorded hp hq hfixed hlt).le
        · rw [h.eq_of_seq_left hrecorded hp hq hseq]

/-- No two events have one sort key. -/
theorem orderKey_inj (hrecorded : Recorded events) (h : Interleaving matching events events')
    {p q : StoredEvent F D × StoredEvent F D} (hp : p ∈ matching) (hq : q ∈ matching)
    (heq : orderKey events' p.2 = orderKey events' q.2) : p = q := by
  obtain ⟨hanchor, -⟩ := h.anchor_outside hrecorded hp
  obtain ⟨hanchor', -⟩ := h.anchor_outside hrecorded hq
  rw [orderKey_eq, orderKey_eq, List.cons.injEq, h.groupSeq_right hp, h.groupSeq_right hq,
    h.place_eq hrecorded, h.place_eq hrecorded, ← h.same p hp, ← h.same q hq] at heq
  obtain ⟨hgroup, hrest⟩ := heq
  obtain ⟨hplace, htie⟩ := List.append_inj' hrest rfl
  have hsame := h.eq_of_seq_right hanchor hanchor' hgroup
  rcases h.eq_or_fixed hrecorded hp hq hsame hplace with rfl | ⟨hmodel, hmodel', -⟩
  · rfl
  · rw [h.same p hp] at hmodel
    rw [h.same q hq] at hmodel'
    rw [tie_of_not_model hmodel, tie_of_not_model hmodel'] at htie
    exact h.eq_of_seq_right hp hq (List.cons.inj htie).1

/-- The canonical order of two logs is one sequence of events. -/
theorem canonicalOrder_eq (hrecorded : Recorded events)
    (h : Interleaving matching events events') :
    (canonicalOrder events).map (fun e => e.event) =
      (canonicalOrder events').map fun e => e.event := by
  obtain ⟨matching', hright, hreordering⟩ := h.exists_reordering
  have hsorted : ∀ (log : List (StoredEvent F D)) (l : List (StoredEvent F D × StoredEvent F D))
      (f : StoredEvent F D × StoredEvent F D → StoredEvent F D),
      ((l.map f).mergeSort fun a b => decide (orderKey log a ≤ orderKey log b)) =
        (l.mergeSort fun p q => decide (orderKey log (f p) ≤ orderKey log (f q))).map f := by
    intro log l f
    exact (List.map_mergeSort (f := f) (s := fun a b => decide (orderKey log a ≤ orderKey log b))
      fun _ _ _ _ => rfl).symm
  have hleft : canonicalOrder events = (matching.mergeSort fun p q =>
      decide (orderKey events p.1 ≤ orderKey events q.1)).map Prod.fst := by
    rw [← hsorted, h.left, canonicalOrder]
  have hsort : canonicalOrder events' = (matching'.mergeSort fun p q =>
      decide (orderKey events' p.2 ≤ orderKey events' q.2)).map Prod.snd := by
    rw [← hsorted, hright, canonicalOrder]
  have hsame := mergeSort_eq_of_perm hreordering.perm
    (fun p hp q hq => h.orderKey_mono hrecorded hp hq)
    (fun p hp q hq => h.orderKey_inj hrecorded hp hq)
  rw [hleft, hsort, hsame, List.map_map, List.map_map]
  refine List.map_congr_left fun p hp => ?_
  exact h.same p (hreordering.perm.mem_iff.mpr (List.mem_mergeSort.mp hp))

end Interleaving

variable [Sha256 D]

/-- The digest of a run is that of its events in canonical order. -/
theorem runDigest_eq (log : List (StoredEvent F D)) :
    runDigest log = sha256Hex D (((canonicalOrder log).map fun e => e.event).flatMap fun event =>
      event.canonicalBytes ++ [10]) := by
  rw [runDigest, List.flatMap_map]

/-- The canonical order, the digest and the steps of a run do not depend on the order in
which the tool calls of a batch finish. -/
theorem interleaving_irrelevant (hrecorded : Recorded events)
    (h : Interleaving matching events events') (appendSubmit : Bool) :
    (canonicalOrder events).map (fun e => e.event) =
        (canonicalOrder events').map (fun e => e.event) ∧
      runDigest events = runDigest events' ∧
      extractSteps appendSubmit events = extractSteps appendSubmit events' := by
  have horder := h.canonicalOrder_eq hrecorded
  refine ⟨horder, ?_, ?_⟩
  · rw [runDigest_eq, horder, ← runDigest_eq]
  · rw [extractSteps, h.extractTraces_eq hrecorded, ← extractSteps]

/-! Two tool calls read the clock and finish in either order. -/

namespace Demo

def zero : Decimal := Recording.Demo.instant.recordedAt

def unmeasured : EventMeta Decimal := ⟨zero, none, none⟩

def call : Event Decimal HexDigest :=
  .modelCall {
    callId := "c".toList, provider := [], modelId := [], modelVersion := none, params := {}
    tools := none, messages := [], messagesHash := [], response := Recording.Demo.silent
    stream := none, eventMeta := unmeasured, reassembles := streamReassembles_none _ }

def readIn (tool : String) : Event Decimal HexDigest :=
  .environment {
    parentCallId := some "c".toList, toolCallId := some tool.toList, source := .clock, key := none
    value := sortKeys .null, eventMeta := unmeasured }

def finish (tool : String) (batchIndex : ℤ) : Event Decimal HexDigest :=
  .toolCall {
    parentCallId := "c".toList, toolCallId := tool.toList, batchIndex := batchIndex, name := []
    args := .empty, argsHash := [], result := ⟨Sha256.hash [], 0⟩, status := .ok
    error := none, eventMeta := unmeasured }

def stored (seq : ℤ) (event : Event Decimal HexDigest) : StoredEvent Decimal HexDigest :=
  ⟨"run".toList, seq, event⟩

def together : List (StoredEvent Decimal HexDigest) :=
  [stored 0 call, stored 1 (readIn "a"), stored 2 (readIn "b"), stored 3 (finish "a" 0),
    stored 4 (finish "b" 1)]

def inTurn : List (StoredEvent Decimal HexDigest) :=
  [stored 0 call, stored 1 (readIn "b"), stored 2 (finish "b" 1), stored 3 (readIn "a"),
    stored 4 (finish "a" 0)]

/-- The example's log is the record of a run. -/
theorem together_recorded : Recorded together where
  increasing := by simp [together, stored]
  calls := by simp [together, stored, call, readIn, finish]
  unique := by simp [together, stored, call, readIn, finish]
  distinct := by simp [together, stored, call, readIn, finish]
  inside := by
    simp [together, stored, call, readIn, finish, owner, truthy, Event.toolCallId,
      Event.parentCallId]
  parent := by
    simp [together, stored, call, readIn, finish, owner, truthy, Event.toolCallId,
      Event.parentCallId]

/-- A tool with an identifier owns what it reads. -/
theorem owner_readIn {tool : String} (h : tool.toList ≠ []) :
    owner (readIn tool) = some tool.toList := truthy_some h

/-- The pairs of the two logs. -/
def moves : List (StoredEvent Decimal HexDigest × StoredEvent Decimal HexDigest) :=
  [(stored 0 call, stored 0 call), (stored 1 (readIn "a"), stored 3 (readIn "a")),
    (stored 2 (readIn "b"), stored 1 (readIn "b")),
    (stored 3 (finish "a" 0), stored 4 (finish "a" 0)),
    (stored 4 (finish "b" 1), stored 2 (finish "b" 1))]

/-- The example's logs are two interleavings of one run. -/
theorem moves_interleaving : Interleaving moves together inTurn where
  left := rfl
  right := by
    have hlast (x y z : StoredEvent Decimal HexDigest) : [x, y, z].Perm [z, x, y] :=
      List.perm_append_comm_assoc [x, y] [z] []
    exact ((List.Perm.swap _ _ _).trans ((hlast _ _ _).cons _)).cons _
  same := by simp [moves, stored]
  increasing := by simp [inTurn, stored]
  kept := by
    have hreads : ¬ Fixed together (readIn "a") (readIn "b") :=
      not_fixed (owner_readIn (by decide)) (owner_readIn (by decide)) (by decide) rfl rfl rfl
    have hread : ¬ Fixed together (readIn "a") (finish "b" 1) :=
      not_fixed (owner_readIn (by decide)) rfl (by decide) rfl rfl rfl
    have hfinish : ¬ Fixed together (finish "a" 0) (finish "b" 1) :=
      not_fixed rfl rfl (by decide) rfl rfl rfl
    simp [moves, stored, hreads, hread, hfinish]

end Demo

/-- The clock is read in the tool calls in turn or together. -/
theorem interleaving_irrelevant_demo :
    (canonicalOrder Demo.together).map (fun e => e.event) =
        (canonicalOrder Demo.inTurn).map (fun e => e.event) ∧
      runDigest Demo.together = runDigest Demo.inTurn ∧
      extractSteps true Demo.together = extractSteps true Demo.inTurn :=
  interleaving_irrelevant Demo.together_recorded Demo.moves_interleaving true

end Tracewake.Alignment
