import Tracewake.Alignment.Placement

/-!
# What a step has written

The steps of a log, one for every batch in the order of the first tool calls. Every step is
described by what the log holds for the tool calls of its batch and of the batches before.
-/

namespace Tracewake.Alignment

open JsonText Recording

variable {F D : Type} [Python F] [Sha256 D]

/-! ## The steps one by one -/

/-- The writes under the tool ids of a batch. -/
def collected (events : List (StoredEvent F D)) (parent : Text) : Finset (Text × Text) :=
  ((sortedTools (batchOf parent events)).flatMap fun tool =>
    events.filterMap fun e => writeOf tool.toolCallId e.event).toFinset

/-- The writes under the tool ids of some batches. -/
def collectedIn (events : List (StoredEvent F D)) (order : List Text) : Finset (Text × Text) :=
  order.toFinset.biUnion (collected events)

/-- The step of a batch, after the batches that come before it. -/
def traceOf (events : List (StoredEvent F D)) (before : List Text) (parent : Text) :
    StepTrace F D :=
  let tools := sortedTools (batchOf parent events)
  ⟨stepOf tools (reasoningOf (lastOf events modelEntry parent))
    (collectedIn events (before ++ [parent])) ((collected events parent).image Prod.fst), parent,
    tools⟩

omit [Sha256 D] in
/-- A step keeps the paths that were written. -/
theorem stepOf_writes (tools : List (ToolCallEvent F D)) (reason : Text)
    (files : Finset (Text × Text)) (written : Finset Text) :
    (stepOf tools reason files written).writes = written := by
  unfold stepOf
  split <;> rfl

omit [Sha256 D] in
/-- A step keeps the files that were changed. -/
theorem stepOf_changedFiles (tools : List (ToolCallEvent F D)) (reason : Text)
    (files : Finset (Text × Text)) (written : Finset Text) :
    (stepOf tools reason files written).changedFiles = files := by
  unfold stepOf
  split <;> rfl

omit [Sha256 D] [Python F] in
/-- Sorting the tools loses none and adds none. -/
theorem mem_sortedTools {tools : List (ToolCallEvent F D)} {tool : ToolCallEvent F D} :
    tool ∈ sortedTools tools ↔ tool ∈ tools :=
  (List.mergeSort_perm tools _).mem_iff

omit [Sha256 D] [Python F] in
/-- Adding the writes of several tools adds all of them. By induction on the tools. -/
theorem foldl_addWrites (writesByTool : Text → List (Text × Text))
    (tools : List (ToolCallEvent F D)) (changed : Finset (Text × Text)) (written : Finset Text) :
    tools.foldl (addWrites writesByTool) (changed, written) =
      (changed ∪ (tools.flatMap fun tool => writesByTool tool.toolCallId).toFinset,
        written ∪ ((tools.flatMap fun tool => writesByTool tool.toolCallId).map
          Prod.fst).toFinset) := by
  induction tools generalizing changed written with
  | nil => simp
  | cons tool rest ih =>
    rw [List.foldl_cons, addWrites, ih]
    simp only [List.flatMap_cons, List.map_append, List.toFinset_append, Finset.union_assoc]

/-- The group of a parent is the batch of its tools. -/
theorem toolGroups_getD (events : List (StoredEvent F D)) (parent : Text) :
    ((groupEvents events).toolGroups parent).getD [] = batchOf parent events := by
  rw [groupEvents_toolGroups]
  split
  · next hempty => rw [hempty, Option.getD_none]
  · rw [Option.getD_some]

/-- The second loop makes one step for every batch, from the writes of the batches so far. -/
theorem tracesFrom_eq (events : List (StoredEvent F D)) (before order : List Text) :
    (tracesFrom (lastOf events modelEntry) (groupEvents events) (collectedIn events before)
        order).1 =
      order.mapIdx fun index parent => traceOf events (before ++ order.take index) parent := by
  induction order generalizing before with
  | nil => rfl
  | cons parent rest ih =>
    have hchanged : collectedIn events before ∪ collected events parent =
        collectedIn events (before ++ [parent]) := by
      simp [collectedIn, Finset.union_comm]
    have hpairs : (sortedTools (batchOf parent events)).foldl
        (addWrites (groupEvents events).writesByTool) (collectedIn events before, ∅) =
        (collectedIn events (before ++ [parent]), (collected events parent).image Prod.fst) := by
      rw [foldl_addWrites, ← hchanged]
      simp only [groupEvents_writesByTool, Finset.empty_union]
      rw [collected]
      congr 1
      ext path
      simp
    simp only [tracesFrom, toolGroups_getD, hpairs, ih, List.mapIdx_cons, List.take_zero,
      List.append_nil, List.take_succ_cons, List.append_assoc, List.singleton_append]
    rfl

/-- The steps of a log, one for every batch. -/
theorem extractTraces_mapIdx (events : List (StoredEvent F D)) :
    extractTraces false events = (firsts (parents events)).mapIdx fun index parent =>
      traceOf events ((firsts (parents events)).take index) parent := by
  have htraces := tracesFrom_eq events [] (firsts (parents events))
  simp only [List.nil_append] at htraces
  rw [← htraces, extractTraces, groupEvents_groupOrder]
  rfl

/-! ## Attribution -/

/-- What a write event adds to a step. -/
def pairOf (write : FsWriteEvent F D) : Text × Text :=
  (write.path, Sha256.hex write.content.digest)

/-- A tool call of the batch has written, under the model call of the batch. -/
def Wrote (events : List (StoredEvent F D)) (parent : Text) (pair : Text × Text) : Prop :=
  ∃ e ∈ events, ∃ write, e.event = .fsWrite write ∧ pairOf write = pair ∧
    write.parentCallId = some parent ∧
    ∃ tool ∈ batchOf parent events, write.toolCallId = some tool.toolCallId

/-- The log has a write under a tool id of the batch. -/
def Found (events : List (StoredEvent F D)) (parent : Text) (pair : Text × Text) : Prop :=
  ∃ e ∈ events, ∃ write, e.event = .fsWrite write ∧ pairOf write = pair ∧
    ∃ tool ∈ batchOf parent events, truthy write.toolCallId = some tool.toolCallId

/-- The log has a write under a tool id of the batch and under another model call. -/
def Foreign (events : List (StoredEvent F D)) (parent : Text) (pair : Text × Text) : Prop :=
  ∃ e ∈ events, ∃ write, e.event = .fsWrite write ∧ pairOf write = pair ∧
    write.parentCallId ≠ some parent ∧
    ∃ tool ∈ batchOf parent events, truthy write.toolCallId = some tool.toolCallId

/-- A tool call of the batch that has an empty id has written. -/
def Unnamed (events : List (StoredEvent F D)) (parent : Text) (pair : Text × Text) : Prop :=
  ∃ e ∈ events, ∃ write, e.event = .fsWrite write ∧ pairOf write = pair ∧
    write.parentCallId = some parent ∧ write.toolCallId = some [] ∧
    ∃ tool ∈ batchOf parent events, tool.toolCallId = []

/-- The steps of a log hold the writes of their batches. -/
structure Attributed (events : List (StoredEvent F D)) : Prop where
  writes : ∀ trace ∈ extractTraces false events, ∀ path, path ∈ trace.step.writes ↔
    ∃ digest, Wrote events trace.parentCallId (path, digest)
  changedFiles : ∀ k trace, (extractTraces false events)[k]? = some trace → ∀ pair,
    pair ∈ trace.step.changedFiles ↔
      ∃ earlier ∈ (extractTraces false events).take (k + 1), Wrote events earlier.parentCallId pair

/-- A write under another model call does not show in a batch with the same tool id, because
the batch has written there itself, and the write of a tool call with an empty id is not
missed, because another one is found. -/
structure Separate (events : List (StoredEvent F D)) : Prop where
  foreign : ∀ parent path digest, Foreign events parent (path, digest) →
    ∃ own, Wrote events parent (path, own)
  unnamed : ∀ parent path digest, Unnamed events parent (path, digest) →
    ∃ other, Found events parent (path, other)
  foreignChanged : ∀ k parent, (firsts (parents events))[k]? = some parent → ∀ pair,
    Foreign events parent pair →
      ∃ earlier ∈ (firsts (parents events)).take (k + 1), Wrote events earlier pair
  unnamedChanged : ∀ k parent, (firsts (parents events))[k]? = some parent → ∀ pair,
    Unnamed events parent pair →
      ∃ earlier ∈ (firsts (parents events)).take (k + 1), Found events earlier pair

section Attribution

variable {events : List (StoredEvent F D)}

/-- A write is attributed to a tool if it names it. -/
theorem writeOf_eq_some {id : Text} {event : Event F D} {pair : Text × Text} :
    writeOf id event = some pair ↔ ∃ write, event = .fsWrite write ∧ pairOf write = pair ∧
      truthy write.toolCallId = some id := by
  cases event with
  | fsWrite write =>
    simp only [writeOf, pairOf, Option.ite_none_right_eq_some, Option.some.injEq,
      Event.fsWrite.injEq, exists_eq_left', and_comm]
  | _ => simp [writeOf]

/-- What is collected for a batch is what is found under its tool ids. -/
theorem mem_collected {parent : Text} {pair : Text × Text} :
    pair ∈ collected events parent ↔ Found events parent pair := by
  simp only [collected, List.mem_toFinset, List.mem_flatMap, mem_sortedTools,
    List.mem_filterMap, writeOf_eq_some, Found]
  constructor
  · rintro ⟨tool, htool, e, he, write, hevent, hpair, hid⟩
    exact ⟨e, he, write, hevent, hpair, tool, htool, hid⟩
  · rintro ⟨e, he, write, hevent, hpair, tool, htool, hid⟩
    exact ⟨tool, htool, e, he, write, hevent, hpair, hid⟩

/-- A write under another model call is found by its tool id all the same. -/
theorem Foreign.found {parent : Text} {pair : Text × Text} (h : Foreign events parent pair) :
    Found events parent pair := by
  obtain ⟨e, he, write, hevent, hpair, -, htool⟩ := h
  exact ⟨e, he, write, hevent, hpair, htool⟩

/-- A write of a tool with an empty id belongs to its batch. -/
theorem Unnamed.wrote {parent : Text} {pair : Text × Text} (h : Unnamed events parent pair) :
    Wrote events parent pair := by
  obtain ⟨e, he, write, hevent, hpair, hparent, hid, tool, htool, hempty⟩ := h
  exact ⟨e, he, write, hevent, hpair, hparent, tool, htool, by rw [hid, hempty]⟩

/-- What is found for a batch was written by it, unless it is under another model call. -/
theorem Found.cases {parent : Text} {pair : Text × Text} (h : Found events parent pair) :
    Wrote events parent pair ∨ Foreign events parent pair := by
  obtain ⟨e, he, write, hevent, hpair, tool, htool, hid⟩ := h
  by_cases hparent : write.parentCallId = some parent
  · exact .inl ⟨e, he, write, hevent, hpair, hparent, tool, htool,
      (Option.filter_eq_some_iff.mp hid).1⟩
  · exact .inr ⟨e, he, write, hevent, hpair, hparent, tool, htool, hid⟩

/-- What a batch has written is found, unless the tool call has an empty id. -/
theorem Wrote.cases {parent : Text} {pair : Text × Text} (h : Wrote events parent pair) :
    Found events parent pair ∨ Unnamed events parent pair := by
  obtain ⟨e, he, write, hevent, hpair, hparent, tool, htool, hid⟩ := h
  by_cases hempty : tool.toolCallId = []
  · exact .inr ⟨e, he, write, hevent, hpair, hparent, by rw [hid, hempty], tool, htool, hempty⟩
  · refine .inl ⟨e, he, write, hevent, hpair, tool, htool, ?_⟩
    rw [hid, truthy, Option.filter_some, if_pos (by simpa using hempty)]

/-- The trace at a place is that of the parent at this place. -/
theorem extractTraces_getElem? (k : ℕ) : (extractTraces false events)[k]? =
    (firsts (parents events))[k]?.map fun parent =>
      traceOf events ((firsts (parents events)).take k) parent := by
  rw [extractTraces_mapIdx, List.getElem?_mapIdx]

/-- There is one trace for each parent, in the order of their first events. -/
theorem extractTraces_parents :
    (extractTraces false events).map (fun trace => trace.parentCallId) =
      firsts (parents events) := by
  apply List.ext_getElem?
  intro k
  rw [List.getElem?_map, extractTraces_getElem?, Option.map_map]
  exact Option.map_id' ..

/-- The files that have changed up to a step are those that are found for the batches so
far. -/
theorem mem_changedFiles {k : ℕ} {parent : Text}
    (hparent : (firsts (parents events))[k]? = some parent) {pair : Text × Text} :
    pair ∈ (traceOf events ((firsts (parents events)).take k) parent).step.changedFiles ↔
      ∃ earlier ∈ (firsts (parents events)).take (k + 1), Found events earlier pair := by
  rw [traceOf, stepOf_changedFiles, List.take_add_one, hparent]
  simp only [collectedIn, Finset.mem_biUnion, List.mem_toFinset, mem_collected,
    Option.toList_some]

/-- The steps of a log hold the writes of their batches exactly when the writes under other
model calls and those under empty ids make no difference. -/
theorem extractTraces_attributed_iff : Attributed events ↔ Separate events := by
  have htake : ∀ k pair, (∃ earlier ∈ (extractTraces false events).take (k + 1),
      Wrote events earlier.parentCallId pair) ↔
      ∃ earlier ∈ (firsts (parents events)).take (k + 1), Wrote events earlier pair := by
    intro k pair
    rw [← extractTraces_parents, ← List.map_take]
    simp only [List.mem_map, exists_exists_and_eq_and]
  have hwrites : ∀ before parent path,
      path ∈ (traceOf events before parent).step.writes ↔
        ∃ digest, Found events parent (path, digest) := by
    intro before parent path
    rw [traceOf, stepOf_writes]
    simp [mem_collected]
  have hbatch : ∀ parent, (∃ tool, tool ∈ batchOf parent events) →
      ∃ k : ℕ, (firsts (parents events))[k]? = some parent := by
    rintro parent ⟨tool, htool⟩
    refine List.mem_iff_getElem?.mp (mem_firsts.mpr ?_)
    by_contra hout
    rw [batchOf_eq_nil.mpr hout] at htool
    cases htool
  have htrace : ∀ parent, (∃ tool, tool ∈ batchOf parent events) → ∃ before,
      traceOf events before parent ∈ extractTraces false events := by
    intro parent htool
    obtain ⟨k, hk⟩ := hbatch parent htool
    exact ⟨_, List.mem_of_getElem? (by rw [extractTraces_getElem?, hk]; rfl)⟩
  constructor
  · intro h
    constructor
    · intro parent path digest hforeign
      obtain ⟨before, hmem⟩ := htrace parent (by
        obtain ⟨e, he, write, -, -, -, tool, htool, -⟩ := hforeign
        exact ⟨tool, htool⟩)
      exact (h.writes _ hmem path).mp ((hwrites before parent path).mpr ⟨digest, hforeign.found⟩)
    · intro parent path digest hunnamed
      obtain ⟨before, hmem⟩ := htrace parent (by
        obtain ⟨e, he, write, -, -, -, -, tool, htool, -⟩ := hunnamed
        exact ⟨tool, htool⟩)
      exact (hwrites before parent path).mp ((h.writes _ hmem path).mpr ⟨digest, hunnamed.wrote⟩)
    · intro k parent hparent pair hforeign
      have hchanged := h.changedFiles k _ (by rw [extractTraces_getElem?, hparent]; rfl) pair
      rw [htake, mem_changedFiles hparent] at hchanged
      refine hchanged.mp ⟨parent, ?_, hforeign.found⟩
      rw [List.take_add_one, hparent]
      simp
    · intro k parent hparent pair hunnamed
      have hchanged := h.changedFiles k _ (by rw [extractTraces_getElem?, hparent]; rfl) pair
      rw [htake, mem_changedFiles hparent] at hchanged
      refine hchanged.mpr ⟨parent, ?_, hunnamed.wrote⟩
      rw [List.take_add_one, hparent]
      simp
  · intro h
    have hindex : ∀ k earlier, earlier ∈ (firsts (parents events)).take (k + 1) →
        ∃ j, (firsts (parents events))[j]? = some earlier ∧
          ∀ other ∈ (firsts (parents events)).take (j + 1),
            other ∈ (firsts (parents events)).take (k + 1) := by
      intro k earlier hmem
      obtain ⟨j, hj⟩ := List.mem_iff_getElem?.mp hmem
      rw [List.getElem?_take] at hj
      split at hj
      · next hlt => exact ⟨j, hj, fun other hother => List.take_subset_take_left _ (by omega) hother⟩
      · cases hj
    constructor
    · intro trace htrace path
      obtain ⟨k, hk⟩ := List.mem_iff_getElem?.mp htrace
      rw [extractTraces_getElem?] at hk
      obtain ⟨parent, -, rfl⟩ := Option.map_eq_some_iff.mp hk
      rw [hwrites]
      constructor
      · rintro ⟨digest, hfound⟩
        rcases hfound.cases with hwrote | hforeign
        · exact ⟨digest, hwrote⟩
        · exact h.foreign parent path digest hforeign
      · rintro ⟨digest, hwrote⟩
        rcases Wrote.cases hwrote with hfound | hunnamed
        · exact ⟨digest, hfound⟩
        · exact h.unnamed parent path digest hunnamed
    · intro k trace hk pair
      rw [extractTraces_getElem?] at hk
      obtain ⟨parent, hparent, rfl⟩ := Option.map_eq_some_iff.mp hk
      rw [htake, mem_changedFiles hparent]
      constructor
      · rintro ⟨earlier, hmem, hfound⟩
        rcases hfound.cases with hwrote | hforeign
        · exact ⟨earlier, hmem, hwrote⟩
        · obtain ⟨j, hj, hsub⟩ := hindex k earlier hmem
          obtain ⟨own, hown, hwrote⟩ := h.foreignChanged j earlier hj pair hforeign
          exact ⟨own, hsub own hown, hwrote⟩
      · rintro ⟨earlier, hmem, hwrote⟩
        rcases hwrote.cases with hfound | hunnamed
        · exact ⟨earlier, hmem, hfound⟩
        · obtain ⟨j, hj, hsub⟩ := hindex k earlier hmem
          obtain ⟨other, hother, hfound⟩ := h.unnamedChanged j earlier hj pair hunnamed
          exact ⟨other, hsub other hother, hfound⟩

end Attribution

/-! A tool id that comes again under another model call, where it writes another file. -/

namespace Demo

open Recording.Demo

/-- A file that is written. -/
def file (path : String) : FsWriteEvent Decimal HexDigest where
  path := path.toList
  content := ⟨Sha256.hash [], 0⟩
  eventMeta := unmeasured

/-- Two model calls, each with a tool call "a" that writes a file. -/
def writing : List (Act Decimal HexDigest) :=
  [.create none (answer '1'), .call none (minted '1') (request "a" 0), .write (some 0) (file "p"),
    .finish 0 nothing, .create none (answer '2'), .call none (minted '2') (request "a" 0),
    .write (some 1) (file "q"), .finish 1 nothing]

def written : Recorder Decimal HexDigest := (start.run writing).getD start

/-- The example runs. -/
theorem writing_run : start.run writing = some written := rfl

/-- In the example two tools with one identifier write one path each. -/
theorem written_log : ∃ a b c d e f, written.log = [a, b, c, d, e, f] ∧
    (∃ model, a.event = .modelCall model) ∧
    (∃ write, b.event = .fsWrite write ∧ write.path = "p".toList) ∧
    (∃ tool, c.event = .toolCall tool) ∧ (∃ model, d.event = .modelCall model) ∧
    (∃ write, e.event = .fsWrite write ∧ write.parentCallId = some (minted '2')) ∧
    ∃ tool, f.event = .toolCall tool :=
  ⟨_, _, _, _, _, _, rfl, ⟨_, rfl⟩, ⟨_, rfl, rfl⟩, ⟨_, rfl⟩, ⟨_, rfl⟩, ⟨_, rfl, rfl⟩, _, rfl⟩

/-- The step of the first model call holds the file of the second one. -/
theorem written_first : ∃ trace ∈ extractTraces false written.log,
    trace.parentCallId = minted '1' ∧ "q".toList ∈ trace.step.writes := by
  decide +kernel

end Demo

/-- The write under the second model call is attributed to the step of the first one. -/
theorem extractTraces_misattributed :
    ¬ ∀ acts s, Demo.start.run acts = some s → Attributed s.log := by
  intro h
  obtain ⟨trace, htrace, hparent, hq⟩ := Demo.written_first
  obtain ⟨digest, e, he, write, hevent, hpair, hown, -⟩ :=
    ((h Demo.writing Demo.written Demo.writing_run).writes trace htrace _).mp hq
  obtain ⟨a, b, c, d, e', f, hlog, ⟨model, ha⟩, ⟨first, hb, hpath⟩, ⟨tool, hc⟩, ⟨model', hd⟩,
    ⟨second, he', hsecond⟩, ⟨tool', hf⟩⟩ := Demo.written_log
  rw [hlog] at he
  have hq : write.path = "q".toList := congrArg Prod.fst hpair
  simp only [List.mem_cons, List.not_mem_nil, or_false] at he
  rcases he with rfl | rfl | rfl | rfl | rfl | rfl
  · cases ha.symm.trans hevent
  · obtain rfl := Event.fsWrite.inj (hb.symm.trans hevent)
    exact absurd (hpath.symm.trans hq) (by decide)
  · cases hc.symm.trans hevent
  · cases hd.symm.trans hevent
  · obtain rfl := Event.fsWrite.inj (he'.symm.trans hevent)
    rw [hsecond, hparent] at hown
    exact absurd hown (by decide)
  · cases hf.symm.trans hevent

end Tracewake.Alignment
