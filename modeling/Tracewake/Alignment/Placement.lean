import Tracewake.Alignment.Interleaving
import Tracewake.Recording.Recorder

/-!
# Places in the canonical order

The canonical order puts the events of a run under their model calls. The order is read off
the sort keys; that the keys say where an event belongs is a property of the runs that
recorders make, and it needs that the ids in the log are those of the calls.
-/

namespace Tracewake.Alignment

open JsonText Recording
open Interleaving (Inner place_inner tie_of_not_model)

variable {F D : Type} [Python F]

/-! ## Sorted lists -/

section Sorted

variable {α : Type}

/-- In a list that is sorted by a total relation an element stands before those that it is
strictly below. -/
theorem pair_sublist_of_not {R : α → α → Prop} {l : List α} {a b : α} (hl : l.Pairwise R)
    (ha : a ∈ l) (hb : b ∈ l) (hne : a ≠ b) (hnot : ¬ R b a) : [a, b].Sublist l := by
  induction l with
  | nil => cases ha
  | cons c l ih =>
    obtain ⟨hc, hl⟩ := List.pairwise_cons.mp hl
    rcases List.mem_cons.mp ha with rfl | hal
    · rcases List.mem_cons.mp hb with rfl | hbl
      · exact absurd rfl hne
      · exact (List.singleton_sublist.mpr hbl).cons_cons a
    · rcases List.mem_cons.mp hb with rfl | hbl
      · exact absurd (hc a hal) hnot
      · exact (ih hl hal hbl).cons c

/-- A property that holds of a beginning of a sorted list. -/
theorem filter_append_of_pairwise {R : α → α → Prop} {p : α → Bool} {l : List α}
    (hl : l.Pairwise R) (hdown : ∀ a ∈ l, ∀ b ∈ l, R a b → p b = true → p a = true) :
    l = l.filter p ++ l.filter fun a => !p a := by
  induction l with
  | nil => rfl
  | cons a l ih =>
    obtain ⟨ha, hl⟩ := List.pairwise_cons.mp hl
    cases hp : p a with
    | true =>
      have hrest := ih hl fun b hb c hc =>
        hdown b (List.mem_cons_of_mem a hb) c (List.mem_cons_of_mem a hc)
      rw [List.filter_cons_of_pos hp, List.filter_cons_of_neg (by simp [hp]), List.cons_append,
        ← hrest]
    | false =>
      have hnone : ∀ b ∈ l, p b = false := by
        intro b hb
        by_contra htrue
        have := hdown a (List.mem_cons_self ..) b (List.mem_cons_of_mem a hb) (ha b hb)
          (by simpa using htrue)
        rw [hp] at this
        cases this
      rw [List.filter_eq_nil_iff.mpr, List.filter_eq_self.mpr, List.nil_append]
      · intro b hb
        rcases List.mem_cons.mp hb with rfl | hb
        · simp [hp]
        · simp [hnone b hb]
      · intro b hb
        rcases List.mem_cons.mp hb with rfl | hb
        · simp [hp]
        · simp [hnone b hb]

end Sorted

/-! ## Groups -/

/-- An event is made under a model call. -/
def ChildOf (callId : Text) (event : Event F D) : Prop :=
  modelOf event = none ∧ event.parentCallId = some callId

instance (callId : Text) (event : Event F D) : Decidable (ChildOf callId event) :=
  inferInstanceAs (Decidable (modelOf event = none ∧ _))

/-- A log is numbered, and the ids of its model calls are distinct. -/
structure Numbered (log : List (StoredEvent F D)) : Prop where
  increasing : log.Pairwise fun a b => a.seq < b.seq
  ids : ∀ a ∈ log, ∀ model, a.event = .modelCall model → model.callId ≠ []
  calls : ∀ a ∈ log, ∀ b ∈ log, ∀ model model', a.event = .modelCall model →
    b.event = .modelCall model' → model.callId = model'.callId → a = b

section Groups

variable {log : List (StoredEvent F D)}

/-- In a numbered log a sequence number names one event. -/
theorem Numbered.seqs (hlog : Numbered log) {a b : StoredEvent F D} (ha : a ∈ log)
    (hb : b ∈ log) (hseq : a.seq = b.seq) : a = b :=
  List.inj_on_of_nodup_map (Interleaving.nodup_seq hlog.increasing) ha hb hseq

/-- In a numbered log no event occurs twice. -/
theorem Numbered.nodup (hlog : Numbered log) : log.Nodup :=
  (Interleaving.nodup_seq hlog.increasing).of_map _

/-- An event that is no model call belongs to the group of its parent, or makes one of its
own. -/
theorem groupSeq_of_not_model {e : StoredEvent F D} (hmodel : modelOf e.event = none) :
    groupSeq log e =
      ((truthy e.event.parentCallId).bind (lastOf log seqEntry)).getD e.seq := by
  unfold groupSeq
  split
  · next hevent => simp [hevent, modelOf] at hmodel
  · rfl

/-- The sequence entry of an event is that of its model call. -/
theorem seqEntry_eq_some {e : StoredEvent F D} {id : Text} {seq : ℤ} :
    seqEntry e = some (id, seq) ↔
      ∃ model, e.event = .modelCall model ∧ model.callId = id ∧ e.seq = seq := by
  simp only [seqEntry, Option.map_eq_some_iff, modelOf_eq_some, Prod.mk.injEq]

/-- The group of an event that is made under a model call is the one of the call. -/
theorem groupSeq_of_child (hlog : Numbered log) {m e : StoredEvent F D} (hm : m ∈ log)
    {model : ModelCallEvent F} (hmodel : m.event = .modelCall model)
    (hchild : ChildOf model.callId e.event) : groupSeq log e = m.seq := by
  have hlast : lastOf log seqEntry model.callId = some m.seq := by
    refine lastOf_eq_some hm (seqEntry_eq_some.mpr ⟨model, hmodel, rfl, rfl⟩) ?_
    intro b hb seq hentry
    obtain ⟨model', hmodel', hid, rfl⟩ := seqEntry_eq_some.mp hentry
    rw [hlog.calls b hb m hm model' model hmodel' hmodel hid]
  rw [groupSeq_of_not_model hchild.1, hchild.2, truthy_some (hlog.ids m hm model hmodel),
    Option.bind_some, hlast, Option.getD_some]

/-- The events of a model call's group are made under it. -/
theorem child_of_groupSeq (hlog : Numbered log) {m e : StoredEvent F D} (hm : m ∈ log)
    (he : e ∈ log) {model : ModelCallEvent F} (hmodel : m.event = .modelCall model)
    (hinner : modelOf e.event = none) (hgroup : groupSeq log e = m.seq) :
    ChildOf model.callId e.event := by
  refine ⟨hinner, ?_⟩
  have hself : e.seq ≠ m.seq := by
    intro hseq
    obtain rfl := hlog.seqs he hm hseq
    rw [modelOf_eq_some.mpr hmodel] at hinner
    cases hinner
  rw [groupSeq_of_not_model hinner] at hgroup
  cases hparent : truthy e.event.parentCallId with
  | none => exact absurd (by simpa [hparent] using hgroup) hself
  | some parent =>
    rw [hparent, Option.bind_some] at hgroup
    cases hlast : lastOf log seqEntry parent with
    | none => exact absurd (by simpa [hlast] using hgroup) hself
    | some seq =>
      obtain ⟨b, hb, hentry⟩ := lastOf_mem hlast
      obtain ⟨model', hmodel', hid, hseq⟩ := seqEntry_eq_some.mp hentry
      rw [hlast, Option.getD_some, ← hseq] at hgroup
      obtain rfl := hlog.seqs hb hm hgroup
      obtain rfl := Event.modelCall.inj (hmodel'.symm.trans hmodel)
      rw [truthy_eq_some hparent, hid]

/-- The canonical order is sorted by the keys. -/
theorem canonicalOrder_pairwise : (canonicalOrder log).Pairwise fun a b =>
    orderKey log a ≤ orderKey log b := by
  have hsorted : (canonicalOrder log).Pairwise fun a b =>
      decide (orderKey log a ≤ orderKey log b) = true := by
    apply List.pairwise_mergeSort
    · intro a b c hab hbc
      simp only [decide_eq_true_eq] at hab hbc ⊢
      exact hab.trans hbc
    · intro a b
      simp only [Bool.or_eq_true, decide_eq_true_eq]
      exact le_total _ _
  exact hsorted.imp fun h => of_decide_eq_true h

/-- The canonical order has the same events. -/
theorem canonicalOrder_perm : (canonicalOrder log).Perm log :=
  List.mergeSort_perm log _

/-- An event stands before those with a greater key. -/
theorem sublist_of_lt {a b : StoredEvent F D} (ha : a ∈ log) (hb : b ∈ log)
    (hlt : orderKey log a < orderKey log b) : [a, b].Sublist (canonicalOrder log) := by
  refine pair_sublist_of_not canonicalOrder_pairwise (canonicalOrder_perm.mem_iff.mpr ha)
    (canonicalOrder_perm.mem_iff.mpr hb) ?_ (not_le.mpr hlt)
  rintro rfl
  exact lt_irrefl _ hlt

/-- A model call makes a group of its own. -/
theorem groupSeq_modelCall {m : StoredEvent F D} {model : ModelCallEvent F}
    (hmodel : m.event = .modelCall model) : groupSeq log m = m.seq := by
  rw [groupSeq, hmodel]

/-- A model call stands before the events that are made under it. -/
theorem orderKey_lt_of_child (hlog : Numbered log) {m e : StoredEvent F D} (hm : m ∈ log)
    {model : ModelCallEvent F} (hmodel : m.event = .modelCall model)
    (hchild : ChildOf model.callId e.event) : orderKey log m < orderKey log e := by
  have hplace : ∃ rest, place log e.event = 1 :: rest := by
    unfold place
    split
    · next hevent => simp [ChildOf, hevent, modelOf] at hchild
    · exact ⟨_, rfl⟩
    · exact ⟨_, rfl⟩
  have hzero : place log m.event = [0, 0, 0] := by
    rw [hmodel]
    rfl
  obtain ⟨rest, hrest⟩ := hplace
  rw [orderKey_eq, orderKey_eq, groupSeq_of_child hlog hm hmodel hchild,
    groupSeq_modelCall hmodel, hrest, hzero]
  simp [List.cons_lt_cons_iff]

/-- In canonical order the groups come one after the other. -/
theorem groupSeq_le {a b : StoredEvent F D} (hle : orderKey log a ≤ orderKey log b) :
    groupSeq log a ≤ groupSeq log b := by
  rcases (orderKey_le log a b).mp hle with hlt | ⟨heq, -⟩
  · exact hlt.le
  · exact heq.le

/-- The events that are made under a model call follow it directly. -/
theorem children_follow (hlog : Numbered log) {m : StoredEvent F D} (hm : m ∈ log)
    {model : ModelCallEvent F} (hmodel : m.event = .modelCall model) :
    ∃ before kids after, canonicalOrder log = before ++ m :: (kids ++ after) ∧
      (∀ e ∈ kids, ChildOf model.callId e.event) ∧
      ∀ e ∈ before ++ after, ¬ ChildOf model.callId e.event := by
  obtain ⟨before, after, hsplit⟩ := List.append_of_mem (canonicalOrder_perm.mem_iff.mpr hm)
  have hsorted : (canonicalOrder log).Pairwise fun a b => orderKey log a ≤ orderKey log b :=
    canonicalOrder_pairwise
  have hnodup := canonicalOrder_perm.nodup_iff.mpr hlog.nodup
  have hmem : ∀ e ∈ before ++ m :: after, e ∈ log := fun e he =>
    canonicalOrder_perm.mem_iff.mp (hsplit ▸ he)
  rw [hsplit] at hsorted hnodup
  obtain ⟨-, hafter, hbefore⟩ := List.pairwise_append.mp hsorted
  obtain ⟨hfirst, hrest⟩ := List.pairwise_cons.mp hafter
  have hfresh : m ∉ after := (List.nodup_cons.mp (List.nodup_append.mp hnodup).2.1).1
  have hkids := filter_append_of_pairwise
    (p := fun e => decide (ChildOf model.callId e.event)) hrest ?_
  · refine ⟨before, after.filter fun e => decide (ChildOf model.callId e.event),
      after.filter fun e => !decide (ChildOf model.callId e.event), ?_, ?_, ?_⟩
    · rw [hsplit, ← hkids]
    · exact fun e he => of_decide_eq_true (List.mem_filter.mp he).2
    · intro e he
      rcases List.mem_append.mp he with hearly | hlate
      · intro hchild
        exact not_le.mpr (orderKey_lt_of_child hlog hm hmodel hchild)
          (hbefore e hearly m (List.mem_cons_self ..))
      · simpa using (List.mem_filter.mp hlate).2
  · intro a ha b hb hle hchild
    have hgroup := groupSeq_of_child hlog hm hmodel (of_decide_eq_true hchild)
    have hlow := groupSeq_le (hfirst a ha)
    have hhigh := groupSeq_le hle
    rw [groupSeq_modelCall hmodel] at hlow
    rw [hgroup] at hhigh
    have hin : a ∈ log := hmem a (by simp [ha])
    have hequal : groupSeq log a = m.seq := le_antisymm hhigh hlow
    refine decide_eq_true (child_of_groupSeq hlog hm hin hmodel ?_ hequal)
    by_contra hnot
    obtain ⟨model', hmodel'⟩ := Option.ne_none_iff_exists'.mp hnot
    rw [groupSeq_modelCall (modelOf_eq_some.mp hmodel')] at hequal
    obtain rfl := hlog.seqs hin hm hequal
    exact hfresh ha

end Groups

/-! ## Batches -/

section Batches

variable {log : List (StoredEvent F D)}

/-- A call identifier belongs to a model call. -/
theorem callId_eq_some {event : Event F D} {callId : Text} :
    event.position.callId = some callId ↔
      ∃ model, event = .modelCall model ∧ model.callId = callId := by
  cases event <;> simp [Event.position, Position.callId]

/-- An event at another position is an inner one, with the identifiers of that position. -/
theorem position_other {event : Event F D} {parent id : Option Text}
    (h : event.position = .other parent id) : Inner event ∧ event.parentCallId = parent ∧
      event.toolCallId = id := by
  cases event with
  | modelCall => cases h
  | toolCall => cases h
  | _ =>
    obtain ⟨rfl, rfl⟩ := Position.other.inj h
    exact ⟨⟨rfl, rfl⟩, rfl, rfl⟩

/-- The sort key of a tool call under a model call. -/
theorem orderKey_toolCall (hlog : Numbered log) {m e : StoredEvent F D} (hm : m ∈ log)
    {model : ModelCallEvent F} (hmodel : m.event = .modelCall model)
    {tool : ToolCallEvent F D} (htool : e.event = .toolCall tool)
    (hparent : tool.parentCallId = model.callId) :
    orderKey log e = [m.seq, 1, tool.batchIndex, 1, e.seq] := by
  have hchild : ChildOf model.callId e.event := by
    rw [htool, ← hparent]
    exact ⟨rfl, rfl⟩
  have hinner : modelOf e.event = none := hchild.1
  rw [orderKey_eq, groupSeq_of_child hlog hm hmodel hchild, tie_of_not_model hinner, htool]
  rfl

/-- The sort key of an event that is made in a tool call under a model call. -/
theorem orderKey_inside (hlog : Numbered log) {m e : StoredEvent F D} (hm : m ∈ log)
    {model : ModelCallEvent F} (hmodel : m.event = .modelCall model) {id : Text} {batch : ℤ}
    (hposition : e.event.position = .other (some model.callId) (some id)) (hid : id ≠ [])
    (hbatch : lastOf log batchEntry id = some batch) :
    orderKey log e = [m.seq, 1, batch, 0, e.seq] := by
  obtain ⟨hinner, hparent, htool⟩ := position_other hposition
  have howner : owner e.event = some id := by
    rw [← truthy_some hid, ← htool]
    cases hevent : e.event with
    | toolCall tool =>
      rw [hevent] at hinner
      cases hinner.2
    | _ => rfl
  rw [orderKey_eq, groupSeq_of_child hlog hm hmodel ⟨hinner.1, hparent⟩, place_inner hinner,
    howner, tie_of_not_model hinner.1, Option.bind_some, hbatch]
  rfl

end Batches

/-! ## What runs record -/

/-- In a tool call only files and the environment are accessed, and the environment while
the model call of the tool call is the current one. -/
def Direct (r : Recorder F D) : Act F D → Prop
  | .create scope _ => scope = none
  | .finalize scope _ => scope = none
  | .call scope _ _ => scope = none
  | .outcome scope _ => scope = none
  | .envValue scope _ => ∀ execution ∈ r.executionOf scope,
    r.currentCallId = some execution.parentCallId
  | _ => True

/-- Tool calls are not inside others, and the events in a tool call have its ids. -/
structure Inside (r : Recorder F D) : Prop where
  outer : ∀ execution ∈ r.executions, execution.outer = []
  within : ∀ entry ∈ r.entries, ∀ k ∈ entry.within, ∃ execution,
    r.executions[k]? = some execution ∧ (execution.parentCallId ≠ [] →
      entry.stored.event.position =
        .other (some execution.parentCallId) (some execution.request.id))

section Inside

variable {r s : Recorder F D}

/-- Inside one tool an execution is enclosed by that tool only, while it lives. -/
theorem Inside.enclosing (h : Inside r) {scope : Option ℕ} (hlive : r.isLive scope = true)
    {k : ℕ} (hk : k ∈ r.enclosing scope) : scope = some k ∧ ∃ execution,
      r.executions[k]? = some execution := by
  cases scope with
  | none => cases hk
  | some j =>
    obtain ⟨execution, hexecution⟩ := Recorder.exists_execution hlive
    have houter := h.outer execution (List.mem_of_getElem? hexecution)
    rw [Recorder.enclosing, hexecution, Option.map_some, Option.getD_some, houter,
      List.mem_singleton] at hk
    subst hk
    exact ⟨rfl, execution, hexecution⟩

variable [Sha256 D]

/-- The event that a step makes in a tool call has its ids. -/
theorem Inside.made (h : Inside r) {act : Act F D} (hallowed : r.allows act = true)
    (hdirect : Direct r act) {event : Event F D} {within : List ℕ} {ends : Option ℕ}
    (hmade : r.made act = some (event, within, ends)) {k : ℕ} (hk : k ∈ within) :
    ∃ execution, r.executions[k]? = some execution ∧ (execution.parentCallId ≠ [] →
      event.position = .other (some execution.parentCallId) (some execution.request.id)) := by
  have hscope : ∀ scope eventMeta, r.isLive scope = true → k ∈ r.enclosing scope →
      ∃ execution, r.executions[k]? = some execution ∧ (execution.parentCallId ≠ [] →
        (r.scopeFields scope eventMeta).parentCallId = some execution.parentCallId ∧
        (r.scopeFields scope eventMeta).toolCallId = some execution.request.id) := by
    intro scope eventMeta hlive hin
    obtain ⟨rfl, execution, hexecution⟩ := h.enclosing hlive hin
    refine ⟨execution, hexecution, fun hparent => ?_⟩
    simp [Recorder.scopeFields, Recorder.executionOf, hexecution, Option.filter_some, hparent]
  cases act with
  | create scope model | finalize scope model | outcome scope result =>
    obtain ⟨rfl, rfl, rfl⟩ := by simpa [Recorder.made] using hmade
    obtain rfl : scope = none := hdirect
    cases hk
  | finish j outcome =>
    obtain ⟨execution, hexecution, hevent⟩ := Option.map_eq_some_iff.mp hmade
    obtain ⟨rfl, rfl, rfl⟩ := by simpa using hevent
    rw [h.outer execution (List.mem_of_getElem? hexecution)] at hk
    cases hk
  | envValue scope value =>
    obtain ⟨rfl, rfl, rfl⟩ := by simpa [Recorder.made] using hmade
    obtain ⟨rfl, execution, hexecution⟩ := h.enclosing hallowed hk
    have hcurrent : r.currentCallId = some execution.parentCallId :=
      hdirect execution (by simp [Recorder.executionOf, hexecution])
    refine ⟨execution, hexecution, fun _ => ?_⟩
    simp [Event.position, Recorder.envFields, Recorder.executionOf, hexecution, hcurrent]
  | read scope value | write scope value =>
    obtain ⟨rfl, rfl, rfl⟩ := by simpa [Recorder.made] using hmade
    obtain ⟨execution, hexecution, hfields⟩ := hscope scope value.eventMeta hallowed hk
    refine ⟨execution, hexecution, fun hparent => ?_⟩
    obtain ⟨hparent, hid⟩ := hfields hparent
    rw [Event.position, hparent, hid]
  | intervention value =>
    obtain ⟨rfl, rfl, rfl⟩ := by simpa [Recorder.made] using hmade
    cases hk
  | session | serve | stream | call | leave => cases hmade

variable [Pydantic F D]

/-- A direct step keeps the events in tool calls under the ids of these. -/
theorem Inside.step (h : Inside r) {act : Act F D} (hkeeps : r.Keeps act)
    (hdirect : Direct r act) (hstep : r.step act = some s) : Inside s := by
  obtain ⟨hallowed, hcases⟩ := Recorder.step_cases hstep
  have hnext : Inside (r.next act) := by
    constructor
    · intro execution hexecution
      rcases Recorder.outer_of_next hexecution with ⟨earlier, hearlier, hsame⟩ |
        ⟨scope, parentCallId, request, rfl, houter⟩
      · rw [hsame, h.outer earlier hearlier]
      · obtain rfl : scope = none := hdirect
        exact houter
    · intro entry hentry k hk
      rw [Recorder.next_entries] at hentry
      obtain ⟨execution, hexecution, hposition⟩ := h.within entry hentry k hk
      obtain ⟨later, hlater, hparent, hrequest, -⟩ := Recorder.next_execution act hexecution
      exact ⟨later, hlater, by rw [hparent, hrequest]; exact hposition⟩
  rcases hcases with ⟨rfl, -⟩ | ⟨event, within, ends, event', hmade, hredacted, rfl⟩
  · exact hnext
  · refine ⟨hnext.outer, ?_⟩
    intro entry hentry k hk
    rcases List.mem_append.mp hentry with hold | hnew
    · exact hnext.within entry hold k hk
    · obtain rfl := List.mem_singleton.mp hnew
      obtain ⟨execution, hexecution, hposition⟩ := h.made hallowed hdirect hmade hk
      obtain ⟨later, hlater, hparent, hrequest, -⟩ := Recorder.next_execution act hexecution
      refine ⟨later, hlater, ?_⟩
      rw [hparent, hrequest]
      exact fun hne => (hkeeps _ _ _ _ hmade hredacted).trans (hposition hne)

end Inside

/-! ## The canonical order of a recorded run -/

/-- Every event of the log has its place in the canonical order. -/
structure Placed (r : Recorder F D) : Prop where
  perm : (canonicalOrder r.log).Perm r.log
  /-- The events under a model call follow it directly. -/
  children : ∀ m ∈ r.log, ∀ model, m.event = .modelCall model → ∃ before kids after,
    canonicalOrder r.log = before ++ m :: (kids ++ after) ∧
      (∀ e ∈ kids, ChildOf model.callId e.event) ∧
      ∀ e ∈ before ++ after, ¬ ChildOf model.callId e.event
  /-- The tool calls of a batch are in the order of their indexes. -/
  batches : ∀ a ∈ r.log, ∀ b ∈ r.log, ∀ tool tool', a.event = .toolCall tool →
    b.event = .toolCall tool' → tool.parentCallId = tool'.parentCallId →
    tool.batchIndex < tool'.batchIndex → [a, b].Sublist (canonicalOrder r.log)
  /-- What was made in a tool call stands before its end. -/
  ended : ∀ entry ∈ r.entries, ∀ k ∈ entry.within, ∀ done ∈ r.entries, done.ends = some k →
    [entry.stored, done.stored].Sublist (canonicalOrder r.log)
  /-- What was made in a tool call stands after the tool calls before it in the batch. -/
  preceded : ∀ entry ∈ r.entries, ∀ k ∈ entry.within, ∀ done ∈ r.entries, done.ends = some k →
    ∀ tool, done.stored.event = .toolCall tool →
    ∀ other ∈ r.log, ∀ tool', other.event = .toolCall tool' →
      tool'.parentCallId = tool.parentCallId → tool'.batchIndex < tool.batchIndex →
      [other, entry.stored].Sublist (canonicalOrder r.log)

/-- A log that names its model calls, and its tool calls where events are made in them. -/
structure Placeable (r : Recorder F D) : Prop where
  /-- The parent of a tool call is a model call of the log. -/
  closed : ∀ e ∈ r.log, ∀ tool, e.event = .toolCall tool → tool.parentCallId ∈ r.callIds
  /-- The last tool call under the id of one in which an event was made has its index. -/
  own : ∀ entry ∈ r.entries, ∀ k ∈ entry.within, ∀ done ∈ r.entries, done.ends = some k →
    ∀ tool, done.stored.event = .toolCall tool → tool.toolCallId ≠ [] ∧
      lastOf r.log batchEntry tool.toolCallId = some tool.batchIndex

section Runs

variable {r s : Recorder F D}

/-- A recorder numbers its log and gives the model calls distinct ids. -/
theorem numbered_of_consistent (h : r.Consistent) : Numbered r.log where
  increasing := by
    have hseqs : (r.log.map fun stored => stored.seq).Pairwise (· < ·) := by
      rw [h.seqs, List.pairwise_map]
      exact List.pairwise_lt_range.imp fun hlt => by omega
    exact List.pairwise_map.mp hseqs
  ids := by
    intro a ha model hmodel hempty
    have hid : model.callId ∈ r.callIds :=
      List.mem_filterMap.mpr ⟨a, ha, callId_eq_some.mpr ⟨model, hmodel, rfl⟩⟩
    have hhex := h.hex _ (h.calls _ hid).1
    rw [hempty] at hhex
    cases hhex.1
  calls := by
    intro a ha b hb model model' hmodel hmodel' hsame
    by_contra hne
    have hpairwise := List.pairwise_filterMap.mp h.distinct
    have : Std.Symm fun a b : StoredEvent F D => ∀ id, a.event.position.callId = some id →
        ∀ id', b.event.position.callId = some id' → id ≠ id' :=
      ⟨fun a b hab id hid id' hid' => (hab id' hid' id hid).symm⟩
    exact hpairwise.forall ha hb hne _ (callId_eq_some.mpr ⟨model, hmodel, rfl⟩) _
      (callId_eq_some.mpr ⟨model', hmodel', rfl⟩) hsame

/-- The call identifiers of a recorder are those of its model calls. -/
theorem mem_callIds {id : Text} :
    id ∈ r.callIds ↔ ∃ m ∈ r.log, ∃ model, m.event = .modelCall model ∧ model.callId = id := by
  simp only [Recorder.callIds, List.mem_filterMap, callId_eq_some]

/-- In a log of a recorder that names its calls every event has its place. -/
theorem placed_of_inside (hids : r.Consistent) (hinside : Inside r) (hlog : Placeable r) :
    Placed r := by
  have hnumbered := numbered_of_consistent hids
  have hmem : ∀ entry ∈ r.entries, entry.stored ∈ r.log := fun entry hentry =>
    List.mem_map.mpr ⟨entry, hentry, rfl⟩
  have htool : ∀ e ∈ r.log, ∀ tool, e.event = .toolCall tool → ∃ m ∈ r.log, ∃ model,
      m.event = .modelCall model ∧ model.callId = tool.parentCallId :=
    fun e he tool hevent => mem_callIds.mp (hlog.closed e he tool hevent)
  -- an event in a tool call has the key of its place in the batch
  have hkeys : ∀ entry ∈ r.entries, ∀ k ∈ entry.within, ∀ done ∈ r.entries,
      done.ends = some k → ∃ tool m model, done.stored.event = .toolCall tool ∧ m ∈ r.log ∧
        m.event = .modelCall model ∧ model.callId = tool.parentCallId ∧
        orderKey r.log entry.stored = [m.seq, 1, tool.batchIndex, 0, entry.stored.seq] := by
    intro entry hentry k hk done hdone hends
    obtain ⟨execution, hexecution, hposition⟩ := hids.ends done hdone k hends
    obtain ⟨execution', hexecution', hwithin⟩ := hinside.within entry hentry k hk
    obtain rfl := Option.some.inj (hexecution.symm.trans hexecution')
    cases hevent : done.stored.event with
    | toolCall tool =>
      rw [hevent] at hposition
      obtain ⟨hparent, hid, hbatch⟩ := Position.toolCall.inj hposition
      obtain ⟨m, hm, model, hmodel, hcall⟩ := htool _ (hmem done hdone) tool hevent
      obtain ⟨hne, hlast⟩ := hlog.own entry hentry k hk done hdone hends tool hevent
      refine ⟨tool, m, model, rfl, hm, hmodel, hcall, ?_⟩
      refine orderKey_inside hnumbered hm hmodel ?_ hne hlast
      rw [hwithin, hcall, hparent, hid]
      rw [← hparent, ← hcall]
      exact hnumbered.ids m hm model hmodel
    | _ =>
      rw [hevent] at hposition
      cases hposition
  constructor
  · exact canonicalOrder_perm
  · exact fun m hm model hmodel => children_follow hnumbered hm hmodel
  · intro a ha b hb tool tool' ha' hb' hparent hlt
    obtain ⟨m, hm, model, hmodel, hcall⟩ := htool a ha tool ha'
    apply sublist_of_lt ha hb
    rw [orderKey_toolCall hnumbered hm hmodel ha' hcall.symm,
      orderKey_toolCall hnumbered hm hmodel hb' (hparent.symm.trans hcall.symm)]
    simp [List.cons_lt_cons_iff, hlt]
  · intro entry hentry k hk done hdone hends
    obtain ⟨tool, m, model, hevent, hm, hmodel, hcall, hkey⟩ :=
      hkeys entry hentry k hk done hdone hends
    apply sublist_of_lt (hmem entry hentry) (hmem done hdone)
    rw [hkey, orderKey_toolCall hnumbered hm hmodel hevent hcall.symm]
    simp [List.cons_lt_cons_iff]
  · intro entry hentry k hk done hdone hends tool hevent other hother tool' hother' hparent hlt
    obtain ⟨tool'', m, model, hevent', hm, hmodel, hcall, hkey⟩ :=
      hkeys entry hentry k hk done hdone hends
    obtain rfl := Event.toolCall.inj (hevent'.symm.trans hevent)
    apply sublist_of_lt hother (hmem entry hentry)
    rw [hkey, orderKey_toolCall hnumbered hm hmodel hother' (hparent.trans hcall.symm)]
    simp [List.cons_lt_cons_iff, hlt]

variable [Sha256 D] [Pydantic F D]

/-- Where tool calls only access files and the environment under their own model call, and
the log names its calls, every event of a recorded run has its place. -/
theorem canonicalOrder_placed {acts : List (Act F D)} (hbegun : r.Begun)
    (hmeets : r.Meets (fun r act => r.Keeps act ∧ Direct r act) acts)
    (hrun : r.run acts = some s) (hlog : Placeable s) : Placed s := by
  have hstart : r.Consistent ∧ Inside r := by
    refine ⟨hbegun.consistent, ?_⟩
    obtain ⟨runId, redactor, rfl | ⟨source, -, rfl⟩⟩ := hbegun <;>
      constructor <;> simp [Recorder.started, Recorder.forked]
  have hend : s.Consistent ∧ Inside s := by
    refine Recorder.run_induction (P := fun r => r.Consistent ∧ Inside r) ?_ hstart hmeets hrun
    intro r act t hr hcondition hstep
    exact ⟨hr.1.step hcondition.1 hstep, hr.2.step hcondition.1 hcondition.2 hstep⟩
  exact placed_of_inside hend.1 hend.2 hlog

end Runs

/-! A tool id that comes again under another model call. -/

namespace Demo

open Recording.Demo

/-- A batch of two tool calls, the second of which looks at the clock. -/
def batch : List (Act Decimal HexDigest) :=
  [.create none (answer '1'), .call none (minted '1') (request "x" 0), .finish 0 nothing,
    .call none (minted '1') (request "a" 1), .envValue (some 1) clock, .finish 1 nothing]

/-- Another model call, which uses the id of a tool call again. -/
def again : List (Act Decimal HexDigest) :=
  batch ++ [.create none (answer '2'), .call none (minted '2') (request "a" 0), .finish 2 nothing]

def batched : Recorder Decimal HexDigest := (start.run batch).getD start

def reused : Recorder Decimal HexDigest := (start.run again).getD start

/-- The first example runs. -/
theorem batch_run : start.run batch = some batched := rfl

/-- The second example runs after the first. -/
theorem again_run : start.run again = some reused := rfl

/-- In the second example the identifier of a tool is used again, and a later event sorts
before an earlier tool. -/
theorem reused_entries : ∃ c x e a rest, reused.entries = c :: x :: e :: a :: rest ∧
    e.within = [1] ∧ a.ends = some 1 ∧
    (∃ tool tool', x.stored.event = .toolCall tool ∧ a.stored.event = .toolCall tool' ∧
      tool.parentCallId = tool'.parentCallId ∧ tool.batchIndex < tool'.batchIndex) ∧
    ¬ orderKey reused.log x.stored ≤ orderKey reused.log e.stored :=
  ⟨_, _, _, _, _, rfl, rfl, rfl, ⟨_, _, rfl, rfl, rfl, by decide⟩, by decide +kernel⟩

/-- In the first example each event is placed by the tool that produced it. -/
theorem batched_entries : ∃ c x e a, batched.entries = [c, x, e, a] ∧ c.within = [] ∧
    x.within = [] ∧ e.within = [1] ∧ a.within = [] ∧ x.ends = some 0 ∧ a.ends = some 1 ∧
    (∃ model, c.stored.event = .modelCall model) ∧
    (∃ tool, x.stored.event = .toolCall tool ∧ tool.parentCallId = minted '1') ∧
    (∃ value, e.stored.event = .environment value) ∧
    ∃ tool, a.stored.event = .toolCall tool ∧ tool.parentCallId = minted '1' ∧
      tool.toolCallId = "a".toList ∧ lastOf batched.log batchEntry "a".toList = some tool.batchIndex :=
  ⟨_, _, _, _, rfl, rfl, rfl, rfl, rfl, rfl, rfl, ⟨_, rfl⟩, ⟨_, rfl, rfl⟩, ⟨_, rfl⟩, _, rfl, rfl,
    rfl, rfl⟩

end Demo

/-- The look at the clock is placed before the first tool call of its batch. -/
theorem canonicalOrder_misplaced :
    ¬ ∀ acts s, Demo.start.run acts = some s → Placed s := by
  intro h
  obtain ⟨c, x, e, a, rest, hentries, hwithin, hends, ⟨tool, tool', hx, ha, hparent, hlt⟩, hnot⟩ :=
    Demo.reused_entries
  have hpreceded := (h Demo.again Demo.reused Demo.again_run).preceded e (by simp [hentries]) 1
    (by simp [hwithin]) a (by simp [hentries]) hends tool' ha x.stored
    (by simp [Recorder.log, hentries]) tool hx hparent hlt
  have hpairwise := List.Pairwise.sublist hpreceded canonicalOrder_pairwise
  exact hnot (List.rel_of_pairwise_cons hpairwise (by simp))

/-- In the first example canonical order places every event as claimed. -/
theorem canonicalOrder_placed_batch : Placed Demo.batched := by
  have hkeeps : ∀ r : Recorder Decimal HexDigest, r.redactor = .disabled → ∀ act, r.Keeps act :=
    fun r h act => Recorder.keeps_disabled h act
  have hbegun : Demo.start.Begun := ⟨_, _, .inl rfl⟩
  refine canonicalOrder_placed hbegun ?_ Demo.batch_run ?_
  · refine .cons ⟨hkeeps _ rfl _, rfl⟩ rfl (.cons ⟨hkeeps _ rfl _, rfl⟩ rfl
      (.cons ⟨hkeeps _ rfl _, trivial⟩ rfl (.cons ⟨hkeeps _ rfl _, rfl⟩ rfl
      (.cons ⟨hkeeps _ rfl _, ?_⟩ rfl (.cons ⟨hkeeps _ rfl _, trivial⟩ rfl trivial)))))
    rintro execution ⟨⟩
    rfl
  obtain ⟨c, x, e, a, hentries, hc, hx, he, ha, hxends, haends, ⟨model, hmodel⟩,
    ⟨tool, htool, hparent⟩, ⟨value, hvalue⟩, tool', htool', hparent', hid, hlast⟩ :=
    Demo.batched_entries
  have hcall : Demo.minted '1' ∈ Demo.batched.callIds := by decide +kernel
  constructor
  · simp only [Recorder.log, hentries, List.map_cons, List.map_nil, List.forall_mem_cons]
    refine ⟨?_, ?_, ?_, ?_, by simp⟩
    · simp [hmodel]
    · rintro _ hevent
      obtain rfl := Event.toolCall.inj (htool.symm.trans hevent)
      rwa [hparent]
    · simp [hvalue]
    · rintro _ hevent
      obtain rfl := Event.toolCall.inj (htool'.symm.trans hevent)
      rwa [hparent']
  · simp only [hentries, List.forall_mem_cons, hc, hx, he, ha]
    refine ⟨by simp, by simp, ⟨⟨?_, ?_, ?_, ?_, by simp⟩, by simp⟩, by simp, by simp⟩
    · simp [hmodel]
    · simp [hxends]
    · simp [hvalue]
    · rintro - _ hevent
      obtain rfl := Event.toolCall.inj (htool'.symm.trans hevent)
      rw [hid]
      exact ⟨by decide, hlast⟩

end Tracewake.Alignment
