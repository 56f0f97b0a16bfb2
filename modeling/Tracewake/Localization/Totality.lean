import Tracewake.Alignment.Attribution
import Tracewake.Alignment.Interleaving
import Tracewake.Localization.Rule

/-!
# Where the localization rule fails

The rule takes the first word of a tool's name, and a name of white space has none. Whether
this happens depends on the log: a step whose writes are known is not judged by its names.
-/

namespace Tracewake.Localization

open JsonText Recording Tracewake.Alignment

variable {F D : Type} [Lowercase]

/-- A name that is not empty and has no words. -/
def Blank (name : Text) : Prop :=
  name ≠ [] ∧ ∀ c ∈ name, isSpace c = true

section Names

/-- The last part of a name is there unless the name is blank. -/
theorem tailOf_isOk {name : Text} : (∃ tail, tailOf name = .ok tail) ↔ ¬ Blank name := by
  rw [Blank, ← split_eq_nil, tailOf]
  by_cases hempty : name = []
  · simp [hempty]
  · rw [if_neg hempty]
    cases hsplit : split name with
    | nil => simp [hempty]
    | cons word words => simp [hempty]

/-- Writes are inferred exactly if no action is without a name. -/
theorem inferredWrites_isOk {actions : List (Text × Text)} :
    (∃ out, inferredWrites actions = .ok out) ↔ ∀ action ∈ actions, ¬ Blank action.1 := by
  induction actions with
  | nil => simp [inferredWrites]
  | cons action rest ih =>
    obtain ⟨name, target⟩ := action
    rw [List.forall_mem_cons, ← ih, ← tailOf_isOk, inferredWrites]
    cases tailOf name with
    | error failure => simp [bind, Except.bind]
    | ok tail =>
      cases inferredWrites rest with
      | error failure => simp [bind, Except.bind]
      | ok out => simp [bind, Except.bind, pure, Except.pure]

/-- The paths of a step are found when its writes are known, or no action has a blank name. -/
theorem writtenPaths_isOk {step : Step F} : (∃ written, writtenPaths step = .ok written) ↔
    step.writes ≠ ∅ ∨ ∀ action ∈ actions step, ¬ Blank action.1 := by
  rw [writtenPaths]
  by_cases hwrites : step.writes ≠ ∅
  · simp [hwrites]
  · rw [if_neg hwrites, inferredWrites_isOk, or_iff_right hwrites]

end Names

section Runs

/-- The moves are computed exactly if the written paths of every step are. -/
theorem movesOf_isOk {steps : List (Step F)} : (∃ moves, movesOf steps = .ok moves) ↔
    ∀ step ∈ steps, ∃ written, writtenPaths step = .ok written := by
  induction steps with
  | nil => exact iff_of_true ⟨[], rfl⟩ fun step hstep => nomatch hstep
  | cons step rest ih =>
    rw [List.forall_mem_cons, ← ih]
    constructor
    · rintro ⟨moves, hmoves⟩
      obtain ⟨written, later, hwritten, hlater, -⟩ := movesOf_cons hmoves
      exact ⟨⟨written, hwritten⟩, later, hlater⟩
    · rintro ⟨⟨written, hwritten⟩, later, hlater⟩
      rw [movesOf] at hlater
      refine ⟨⟨written, step.targets, createsFiles step⟩ :: later, ?_⟩
      rw [movesOf, List.mapM_cons, move, hwritten, hlater]
      rfl

/-- The loop of the class looks at every step. -/
theorem writtenPaths_of_commitments {steps : List (Step F)} {seen owned : Finset Text}
    {index : ℕ} {found : List (ℕ × Finset Text)}
    (h : commitments writtenPaths seen owned index steps = .ok found) :
    ∀ step ∈ steps, ∃ written, writtenPaths step = .ok written := by
  induction steps generalizing seen owned index found with
  | nil => exact fun step hstep => nomatch hstep
  | cons step rest ih =>
    rw [commitments] at h
    cases hwritten : writtenPaths step with
    | error failure =>
      rw [hwritten] at h
      cases h
    | ok written =>
      rw [List.forall_mem_cons]
      refine ⟨⟨written, hwritten⟩, ?_⟩
      rw [hwritten] at h
      simp only [bind, Except.bind] at h
      split at h
      · cases h
      · next hlater => exact ih hlater

/-- The rule and its class look at every step. -/
theorem writtenPaths_of_localize {steps : List (Step F)} {result : ℕ × Reliability}
    (hne : steps ≠ []) (h : localize steps = .ok result) :
    ∀ step ∈ steps, ∃ written, writtenPaths step = .ok written := by
  rw [localize, if_neg hne] at h
  cases hfirst : firstNonscratchWrite steps with
  | error failure =>
    rw [hfirst] at h
    cases h
  | ok first =>
    cases hfound : commitments writtenPaths ∅ ∅ 1 steps with
    | error failure =>
      simp only [hfirst, reliability, hfound, bind, Except.bind] at h
      cases h
    | ok found => exact writtenPaths_of_commitments hfound

/-- The rule reports a step of the run, unless the paths of some step are not found. -/
theorem localize_isOk {steps : List (Step F)} (hne : steps ≠ []) :
    (∃ step klass, localize steps = .ok (step, klass) ∧ 1 ≤ step ∧ step ≤ steps.length) ↔
      ∀ step ∈ steps, ∃ written, writtenPaths step = .ok written := by
  constructor
  · rintro ⟨step, klass, hlocalize, -⟩
    exact writtenPaths_of_localize hne hlocalize
  · intro hall
    obtain ⟨moves, hmoves⟩ := movesOf_isOk.mpr hall
    have hlength := movesOf_length hmoves
    have hpositive := List.length_pos_of_ne_nil hne
    have hrange : 1 ≤ reportedStep (min scratchFallback steps.length) moves ∧
        reportedStep (min scratchFallback steps.length) moves ≤ moves.length := by
      apply reportedStep_range <;> rw [scratchFallback] <;> omega
    obtain ⟨klass, hclass, -⟩ := reliability_eq hmoves
    rw [hlength] at hrange
    refine ⟨reportedStep (min scratchFallback steps.length) moves, klass, ?_, hrange⟩
    simp only [localize, if_neg hne, firstNonscratchWrite_eq hne hmoves, hclass, bind,
      Except.bind, pure, Except.pure]

end Runs

section Logs

variable [Python F] [Sha256 D]

omit [Lowercase] [Sha256 D] in
/-- The actions of a step have the names of its tool calls. -/
theorem actions_names {tools : List (ToolCallEvent F D)} (hne : tools ≠ []) (reason : Text)
    (files : Finset (Text × Text)) (written : Finset Text) :
    (actions (stepOf tools reason files written)).map Prod.fst =
      tools.map fun tool => tool.name := by
  match tools with
  | [tool] => rfl
  | first :: second :: rest =>
    have hbatch : actions (stepOf (first :: second :: rest) reason files written) =
        ((first :: second :: rest).map fun tool => tool.name).zip
          ((first :: second :: rest).map fun tool => targetOf tool.args) := rfl
    rw [hbatch, List.map_fst_zip]
    simp

/-- The log has a write under the tool id. -/
def Written (events : List (StoredEvent F D)) (id : Text) : Prop :=
  ∃ e ∈ events, ∃ write, e.event = .fsWrite write ∧ truthy write.toolCallId = some id

omit [Lowercase] in
/-- A tool has written if some event of the log says so. -/
theorem written_iff {events : List (StoredEvent F D)} {id : Text} :
    Written events id ↔ ∃ e ∈ events, ∃ pair, writeOf id e.event = some pair := by
  constructor
  · rintro ⟨e, he, write, hevent, hid⟩
    exact ⟨e, he, _, by rw [hevent, writeOf, if_pos hid]⟩
  · rintro ⟨e, he, pair, hpair⟩
    cases hevent : e.event with
    | fsWrite write =>
      rw [hevent, writeOf] at hpair
      split at hpair
      · next hid => exact ⟨e, he, write, hevent, hid⟩
      · cases hpair
    | _ => simp [hevent, writeOf] at hpair

omit [Lowercase] in
/-- A step has writes when the log has some under the tool ids of its batch. -/
theorem collected_ne_empty {events : List (StoredEvent F D)} {parent : Text} :
    (collected events parent).image Prod.fst ≠ ∅ ↔
      ∃ tool ∈ batchOf parent events, Written events tool.toolCallId := by
  rw [Ne, Finset.image_eq_empty, ← Ne, ← Finset.nonempty_iff_ne_empty]
  simp only [written_iff, collected, Finset.Nonempty, List.mem_toFinset, List.mem_flatMap,
    mem_sortedTools, List.mem_filterMap]
  constructor
  · rintro ⟨pair, tool, htool, e, he, hpair⟩
    exact ⟨tool, htool, e, he, pair, hpair⟩
  · rintro ⟨tool, htool, e, he, pair, hpair⟩
    exact ⟨pair, tool, htool, e, he, hpair⟩

/-- The paths of a batch's step are found when the log has writes for it, or no tool call of
it has a blank name. -/
theorem writtenPaths_traceOf {events : List (StoredEvent F D)} {before : List Text}
    {parent : Text} (hparent : parent ∈ parents events) :
    (∃ written, writtenPaths (traceOf events before parent).step = .ok written) ↔
      ∀ tool ∈ batchOf parent events, Blank tool.name →
        ∃ other ∈ batchOf parent events, Written events other.toolCallId := by
  have hne : sortedTools (batchOf parent events) ≠ [] := by
    intro hempty
    refine batchOf_eq_nil.not.mpr (not_not.mpr hparent) ?_
    rw [List.eq_nil_iff_forall_not_mem]
    intro tool htool
    rw [← mem_sortedTools, hempty] at htool
    cases htool
  have hwrites : (traceOf events before parent).step.writes =
      (collected events parent).image Prod.fst := by
    rw [traceOf, stepOf_writes]
  have hnames : (∀ action ∈ actions (traceOf events before parent).step, ¬ Blank action.1) ↔
      ∀ tool ∈ batchOf parent events, ¬ Blank tool.name := by
    have hmap := actions_names hne (reasoningOf (lastOf events modelEntry parent))
      (collectedIn events (before ++ [parent])) ((collected events parent).image Prod.fst)
    rw [← List.forall_mem_map (f := Prod.fst) (P := fun name => ¬ Blank name), traceOf, hmap,
      List.forall_mem_map]
    simp only [mem_sortedTools]
  rw [writtenPaths_isOk, hwrites, hnames, collected_ne_empty]
  constructor
  · rintro (hsome | hnone) tool htool hblank
    · exact hsome
    · exact absurd hblank (hnone tool htool)
  · intro h
    by_contra hnot
    obtain ⟨hwritten, hblank⟩ := not_or.mp hnot
    apply hblank
    intro tool htool hname
    exact hwritten (h tool htool hname)

/-- The steps of a log are localized exactly when every tool call with a blank name is in a
batch that the log has writes for. -/
theorem localize_extractSteps_iff {events : List (StoredEvent F D)}
    (htools : parents events ≠ []) :
    (∃ step klass, localize (extractSteps false events) = .ok (step, klass) ∧ 1 ≤ step ∧
        step ≤ (extractSteps false events).length) ↔
      ∀ e ∈ events, ∀ tool, e.event = .toolCall tool → Blank tool.name →
        ∃ other ∈ batchOf tool.parentCallId events, Written events other.toolCallId := by
  have hsteps : extractSteps false events = (firsts (parents events)).mapIdx fun index parent =>
      (traceOf events ((firsts (parents events)).take index) parent).step := by
    rw [extractSteps, extractTraces_mapIdx, List.mapIdx_eq_zipIdx_map, List.map_map,
      List.mapIdx_eq_zipIdx_map]
    rfl
  have hne : extractSteps false events ≠ [] := by
    obtain ⟨parent, hparent⟩ := List.exists_mem_of_ne_nil _ htools
    rw [hsteps, Ne, List.mapIdx_eq_nil_iff]
    exact List.ne_nil_of_mem (mem_firsts.mpr hparent)
  rw [localize_isOk hne, hsteps]
  constructor
  · intro hall e he tool hevent hblank
    have htool : tool ∈ batchOf tool.parentCallId events :=
      mem_batchOf.mpr ⟨e, he, rfl, hevent⟩
    have hparent : tool.parentCallId ∈ parents events := by
      by_contra hout
      rw [batchOf_eq_nil.mpr hout] at htool
      cases htool
    obtain ⟨index, hindex, hget⟩ := List.getElem_of_mem (mem_firsts.mpr hparent)
    have hmem := hall _ (List.mem_mapIdx.mpr ⟨index, hindex, rfl⟩)
    rw [hget, writtenPaths_traceOf hparent] at hmem
    exact hmem tool htool hblank
  · intro h step hstep
    obtain ⟨index, hindex, rfl⟩ := List.mem_mapIdx.mp hstep
    rw [writtenPaths_traceOf (mem_firsts.mp (List.getElem_mem hindex))]
    intro tool htool hblank
    obtain ⟨e, he, hparent, hevent⟩ := mem_batchOf.mp htool
    rw [← hparent]
    exact h e he tool hevent hblank

end Logs

/-! A tool call whose name is two spaces. -/

/-- The log of one model call and one tool call. -/
def unnamed : List (StoredEvent Decimal HexDigest) :=
  [Demo.stored 0 Demo.call,
    Demo.stored 1 (.toolCall {
      parentCallId := "c".toList, toolCallId := "a".toList, batchIndex := 0
      name := "  ".toList, args := .empty, argsHash := []
      result := ⟨Sha256.hash [], 0⟩, status := .ok, error := none, eventMeta := Demo.unmeasured })]

omit [Lowercase] in
/-- The name is split into words and has no first one. -/
theorem unnamed_fails : ¬ ∃ step klass,
    @localize Decimal asciiLowercase (extractSteps false unnamed) = .ok (step, klass) ∧
      1 ≤ step ∧ step ≤ (extractSteps false unnamed).length := by
  rintro ⟨step, klass, hlocalize, -⟩
  have hfails : @localize Decimal asciiLowercase (extractSteps false unnamed) =
      .error .indexError := by
    decide +kernel
  rw [hfails] at hlocalize
  cases hlocalize

omit [Lowercase] in
/-- In the example a step is named exactly if the log meets the condition. -/
theorem localize_extractSteps_iff_together :
    (∃ step klass, @localize Decimal asciiLowercase (extractSteps false Demo.together) =
        .ok (step, klass) ∧ 1 ≤ step ∧ step ≤ (extractSteps false Demo.together).length) ↔
      ∀ e ∈ Demo.together, ∀ tool, e.event = .toolCall tool → Blank tool.name →
        ∃ other ∈ batchOf tool.parentCallId Demo.together,
          Written Demo.together other.toolCallId :=
  letI := asciiLowercase
  localize_extractSteps_iff (by decide +kernel)

end Tracewake.Localization
