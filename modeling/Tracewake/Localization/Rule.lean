import Mathlib.Data.Char
import Mathlib.Data.List.Infix
import Mathlib.Data.List.Lex
import Tracewake.Alignment.Steps
import Tracewake.Localization.Scratch

/-!
# The localization rule

Where a failing run went irrecoverably wrong, from the run alone. The rule looks for the
first step that writes a file which is not the run's own scratch file, and a second loop,
with another notion of what is the run's own, says how much to trust the answer.
-/

namespace Tracewake.Localization

open JsonText Tracewake.Alignment

/-- `str.lower`. -/
class Lowercase where
  lower : Text → Text

/-- What the functions raise. -/
inductive Failure where
  | indexError
  | valueError (message : String)
  deriving DecidableEq

section Words

/-- The parts of a text are all empty when it has only separators. -/
theorem splitOnP_empty_iff (separator : Char → Bool) (text : Text) :
    (∀ part ∈ text.splitOnP separator, part = []) ↔ ∀ c ∈ text, separator c = true := by
  induction text with
  | nil => simp
  | cons c text ih =>
    rw [List.splitOnP_cons_eq_if_modifyHead, List.forall_mem_cons, ← ih]
    cases hc : separator c with
    | true => simp
    | false =>
      cases hparts : text.splitOnP separator with
      | nil => exact absurd hparts (List.splitOnP_ne_nil separator text)
      | cons part parts => simp [List.modifyHead]

/-- A text without words has only white space. -/
theorem split_eq_nil {text : Text} : split text = [] ↔ ∀ c ∈ text, isSpace c = true := by
  rw [split, List.filter_eq_nil_iff, ← splitOnP_empty_iff]
  simp

end Words

variable {F : Type} [Lowercase]

/-- `CREATE_MARKERS`. -/
def createMarkers : List Text :=
  ["create".toList, "touch".toList, "new_file".toList, "write_file".toList]

/-- `creates_files`. -/
def createsFiles (step : Step F) : Bool :=
  decide (∃ name ∈ step.names, ∃ marker ∈ createMarkers, marker <:+: Lowercase.lower name)

/-! ## `_written_paths` -/

/-- The words that an action which writes begins with. -/
def verbs : List Text :=
  ["edit".toList, "create".toList, "write".toList, "replace".toList, "insert".toList,
    "append".toList, "patch".toList, "apply".toList, "touch".toList, "new".toList, "save".toList,
    "sed".toList, "tee".toList, "add".toList]

/-- The last part of an action's name. Its first word is taken without asking whether it has
one. -/
def tailOf (name : Text) : Except Failure Text :=
  if name = [] then .ok []
  else
    match split name with
    | [] => .error .indexError
    | word :: _ => .ok (Lowercase.lower ((word.splitOn '.').getLastD []))

/-- Whether a word of the name begins with a verb. -/
def namesWrite (tail : Text) : Bool :=
  ((tail.map fun c => if c = '-' then '_' else c).splitOn '_').any fun word =>
    verbs.any fun verb => verb.isPrefixOf word

/-- The targets of the actions that seem to write. -/
def inferredWrites : List (Text × Text) → Except Failure (Finset Text)
  | [] => .ok ∅
  | (name, target) :: rest => do
    let tail ← tailOf name
    let out ← inferredWrites rest
    return if target ≠ [] ∧ namesWrite tail = true then insert target out else out

/-- The actions of a step with their targets. -/
def actions (step : Step F) : List (Text × Text) :=
  (if step.batchNames ≠ [] then step.batchNames else [step.name]).zip
    (if step.batchTargets ≠ [] then step.batchTargets else [step.target])

/-- `_written_paths`. -/
def writtenPaths (step : Step F) : Except Failure (Finset Text) :=
  if step.writes ≠ ∅ then .ok step.writes else inferredWrites (actions step)

/-! ## `first_nonscratch_write` -/

/-- `SCRATCH_FALLBACK`. -/
def scratchFallback : ℕ := 12

/-- The loop, which returns `fallback` at its end. -/
def firstNonscratchWriteFrom (fallback : ℕ) (read : Finset Text) (scratch : Option Text)
    (index : ℕ) : List (Step F) → Except Failure ℕ
  | [] => .ok fallback
  | step :: rest => do
    let written ← writtenPaths step
    if ∃ path ∈ written, path ∈ read ∨ ∃ s ∈ scratch, path ≠ s then
      .ok index
    else
      firstNonscratchWriteFrom fallback (read ∪ (step.targets \ written))
        (scratch.or (least written)) (index + 1) rest

/-- `first_nonscratch_write`. -/
def firstNonscratchWrite (bad : List (Step F)) : Except Failure ℕ :=
  firstNonscratchWriteFrom (if bad = [] then 1 else min scratchFallback bad.length) ∅ none 1 bad

/-! ## `reliability` -/

/-- `_commitments`, with the paths seen and owned so far. -/
def commitments (writesOf : Step F → Except Failure (Finset Text)) (seen owned : Finset Text)
    (index : ℕ) : List (Step F) → Except Failure (List (ℕ × Finset Text))
  | [] => .ok []
  | step :: rest => do
    let written ← writesOf step
    let changed := written.filter fun path =>
      path ∉ owned ∧ (path ∈ seen ∨ createsFiles step = false)
    let created := if createsFiles step then written \ seen else ∅
    let later ← commitments writesOf (seen ∪ written ∪ step.targets) (owned ∪ created)
      (index + 1) rest
    return if changed = ∅ then later else (index, changed) :: later

/-- `Reliability`. -/
inductive Reliability where
  | commitShort
  | silentShort
  | commitLongSingle
  | commitLongMany
  | silentLong
  deriving DecidableEq

/-- `Confidence`. -/
inductive Confidence where
  | high
  | moderate
  | low
  | veryLow
  deriving DecidableEq

/-- `RELIABILITY_BAND`. -/
def Reliability.band : Reliability → Confidence
  | .commitShort => .high
  | .commitLongSingle => .moderate
  | .commitLongMany => .low
  | .silentShort => .low
  | .silentLong => .veryLow

/-- The class says that no file was changed. -/
def Reliability.silent : Reliability → Bool
  | .silentShort => true
  | .silentLong => true
  | _ => false

/-- `LONG_TRACE`. -/
def longTrace : ℕ := 18

/-- `reliability`. -/
def reliability (bad : List (Step F)) : Except Failure Reliability := do
  let found ← commitments writtenPaths ∅ ∅ 1 bad
  return if found = [] then
    if longTrace < bad.length then .silentLong else .silentShort
  else if bad.length ≤ longTrace then .commitShort
  else if found.length = 1 then .commitLongSingle
  else .commitLongMany

/-- `localize`. -/
def localize (bad : List (Step F)) : Except Failure (ℕ × Reliability) :=
  if bad = [] then
    .error (.valueError "the failure run has no steps to locate a divergence in")
  else do
    let step ← firstNonscratchWrite bad
    let klass ← reliability bad
    return (step, klass)

/-! ## The loops on moves -/

/-- What a step does to files. -/
def move (step : Step F) : Except Failure (Move Text) := do
  let written ← writtenPaths step
  return ⟨written, step.targets, createsFiles step⟩

/-- What the steps of a run do to files. -/
def movesOf (steps : List (Step F)) : Except Failure (List (Move Text)) :=
  steps.mapM move

/-- The moves of steps are those of the first and of the others. -/
theorem movesOf_cons {step : Step F} {rest : List (Step F)} {moves : List (Move Text)}
    (h : movesOf (step :: rest) = .ok moves) : ∃ written later, writtenPaths step = .ok written ∧
      movesOf rest = .ok later ∧ moves = ⟨written, step.targets, createsFiles step⟩ :: later := by
  rw [movesOf, List.mapM_cons, move] at h
  cases hwritten : writtenPaths step with
  | error failure => simp [hwritten, bind, Except.bind] at h
  | ok written =>
    cases hlater : rest.mapM move with
    | error failure => simp [hwritten, hlater, bind, Except.bind, pure, Except.pure] at h
    | ok later =>
      simp only [hwritten, hlater, bind, Except.bind, pure, Except.pure, Except.ok.injEq] at h
      exact ⟨written, later, rfl, hlater, h.symm⟩

/-- There is one move for each step. -/
theorem movesOf_length {steps : List (Step F)} {moves : List (Move Text)}
    (h : movesOf steps = .ok moves) : moves.length = steps.length := by
  induction steps generalizing moves with
  | nil =>
    obtain rfl : [] = moves := Except.ok.inj h
    rfl
  | cons step rest ih =>
    obtain ⟨_, later, _, hlater, rfl⟩ := movesOf_cons h
    simp [ih hlater]

/-- The loop of the rule looks at what the steps do to files. -/
theorem firstNonscratchWriteFrom_eq {steps : List (Step F)} {moves : List (Move Text)}
    (h : movesOf steps = .ok moves) (fallback : ℕ) (read : Finset Text) (scratch : Option Text)
    (index : ℕ) : firstNonscratchWriteFrom fallback read scratch index steps =
      .ok ((search read scratch index moves).getD fallback) := by
  induction steps generalizing moves read scratch index with
  | nil =>
    obtain rfl : [] = moves := Except.ok.inj h
    rfl
  | cons step rest ih =>
    obtain ⟨written, later, hwritten, hlater, rfl⟩ := movesOf_cons h
    simp only [firstNonscratchWriteFrom, search, hwritten, bind, Except.bind]
    split
    · rfl
    · rw [ih hlater]
      rfl

/-- The loop of the class looks at what the steps do to files. -/
theorem commitments_eq {steps : List (Step F)} {moves : List (Move Text)}
    (h : movesOf steps = .ok moves) (seen owned : Finset Text) (index : ℕ) :
    commitments writtenPaths seen owned index steps =
      .ok (commitmentsFrom seen owned index moves) := by
  induction steps generalizing moves seen owned index with
  | nil =>
    obtain rfl : [] = moves := Except.ok.inj h
    rfl
  | cons step rest ih =>
    obtain ⟨written, later, hwritten, hlater, rfl⟩ := movesOf_cons h
    simp only [commitments, commitmentsFrom, hwritten, ih hlater, bind, Except.bind, pure,
      Except.pure]

/-- The rule reports what the loop finds, or the step in default of it. -/
theorem firstNonscratchWrite_eq {steps : List (Step F)} {moves : List (Move Text)}
    (hne : steps ≠ []) (h : movesOf steps = .ok moves) : firstNonscratchWrite steps =
      .ok (reportedStep (min scratchFallback steps.length) moves) := by
  rw [firstNonscratchWrite, if_neg hne, firstNonscratchWriteFrom_eq h]
  rfl

/-- The class is silent when the run owns what it writes. -/
theorem reliability_eq {steps : List (Step F)} {moves : List (Move Text)}
    (h : movesOf steps = .ok moves) : ∃ klass, reliability steps = .ok klass ∧
      (klass.silent = true ↔ Owned moves) := by
  simp only [reliability, commitments_eq h, bind, Except.bind, pure, Except.pure]
  refine ⟨_, rfl, ?_⟩
  rw [← commitments_eq_nil]
  split
  · next hnil => split <;> simp [hnil, Reliability.silent]
  · next hsome =>
    split
    · simp [hsome, Reliability.silent]
    · split <;> simp [hsome, Reliability.silent]

/-! ## The rule and its document -/

/-- The rule reports the step that its document names exactly in the runs that conform. -/
theorem firstNonscratchWrite_documented_iff {steps : List (Step F)} {moves : List (Move Text)}
    (hne : steps ≠ []) (hmoves : movesOf steps = .ok moves) :
    firstNonscratchWrite steps =
        .ok (documentedStep (min scratchFallback steps.length) moves) ↔
      Conforms (min scratchFallback steps.length) moves := by
  rw [firstNonscratchWrite_eq hne hmoves, Except.ok.injEq, reportedStep_eq_iff]

/-- Lowercase letters of ASCII. -/
@[reducible] def asciiLowercase : Lowercase where
  lower text := text.map Char.toLower

/-- A step that reads a file. -/
def readStep (path : String) : Step Unit :=
  { name := "read_file".toList, args := [], target := path.toList }

/-- A step that writes files. -/
def writeStep (name : String) (paths : Finset Text) : Step Unit :=
  { name := name.toList, args := [], writes := paths }

/-- A run that begins with two new files and then looks at a third one. -/
def newFiles : List (Step Unit) :=
  [writeStep "create" {"a.py".toList, "b.py".toList}, readStep "c.py"]

omit [Lowercase] in
/-- In the first example one step creates two files and the next reads a third. -/
theorem newFiles_moves : @movesOf Unit asciiLowercase newFiles =
    .ok [⟨{"a.py".toList, "b.py".toList}, ∅, true⟩, ⟨∅, {"c.py".toList}, false⟩] := by
  decide +kernel

omit [Lowercase] in
/-- Of two files that are created at once one is not the scratch file, but the rule reports
another step. -/
theorem newFiles_undocumented : ¬ ∀ moves, @movesOf Unit asciiLowercase newFiles = .ok moves →
    @firstNonscratchWrite Unit asciiLowercase newFiles =
      .ok (documentedStep (min scratchFallback newFiles.length) moves) := by
  intro h
  exact absurd (h _ newFiles_moves) (by decide +kernel)

/-- A run that reads a file and edits it. -/
def editedFile : List (Step Unit) := [readStep "a.py", writeStep "edit" {"a.py".toList}]

omit [Lowercase] in
/-- In the second example one step writes a file and the next one edits it. -/
theorem editedFile_moves : @movesOf Unit asciiLowercase editedFile =
    .ok [⟨∅, {"a.py".toList}, false⟩, ⟨{"a.py".toList}, ∅, false⟩] := by
  decide +kernel

omit [Lowercase] in
/-- In the second example the answer is the documented one exactly under its condition. -/
theorem firstNonscratchWrite_documented_iff_editedFile :
    @firstNonscratchWrite Unit asciiLowercase editedFile = .ok (documentedStep 2
        [⟨∅, {"a.py".toList}, false⟩, ⟨{"a.py".toList}, ∅, false⟩]) ↔
      Conforms 2 [⟨∅, {"a.py".toList}, false⟩, ⟨{"a.py".toList}, ∅, false⟩] :=
  letI := asciiLowercase
  firstNonscratchWrite_documented_iff (by decide) editedFile_moves

/-! ## The class and the step -/

/-- The class tells which branch chose the reported step: a silent class the fallback, and
any other class a step that writes a file other than the scratch file. -/
structure TellsBranch (moves : List (Move Text)) (result : ℕ × Reliability) : Prop where
  silent : result.2.silent = true ↔ search ∅ none 1 moves = none
  commit : result.2.silent = false ↔ WritesOther (scratchFile ∅ moves) result.1 moves

/-- The class tells which branch chose the step exactly when the run owns whatever it writes
as long as its writes are confined, and only then, and the reported step is named for what it
writes. -/
theorem localize_tellsBranch_iff {steps : List (Step F)} {moves : List (Move Text)}
    (hne : steps ≠ []) (hmoves : movesOf steps = .ok moves) :
    ∃ result, localize steps = .ok result ∧
      (TellsBranch moves result ↔
        (Owned moves ↔ Confined moves) ∧ Names (min scratchFallback steps.length) moves) := by
  obtain ⟨klass, hclass, hsilent⟩ := reliability_eq hmoves
  refine ⟨(reportedStep (min scratchFallback steps.length) moves, klass), ?_, ?_⟩
  · simp only [localize, if_neg hne, firstNonscratchWrite_eq hne hmoves, hclass, bind,
      Except.bind, pure, Except.pure]
  rw [← search_eq_none_iff_confined, ← hsilent, ← search_writesOther_iff]
  constructor
  · rintro ⟨htells, hwrites⟩
    refine ⟨htells, ?_⟩
    rw [← hwrites, Ne, ← htells, Bool.not_eq_true]
  · rintro ⟨htells, hwrites⟩
    refine ⟨htells, ?_⟩
    rw [← hwrites, Ne, ← htells, Bool.not_eq_true]

/-- A run that edits a file it has never looked at. -/
def blindEdit : List (Step Unit) := [writeStep "edit" {"a.py".toList}]

omit [Lowercase] in
/-- In the third example one step edits a file that was not read before. -/
theorem blindEdit_moves : @movesOf Unit asciiLowercase blindEdit =
    .ok [⟨{"a.py".toList}, ∅, false⟩] := by
  decide +kernel

omit [Lowercase] in
/-- The step of an edit without a look before is the one reported by default, but its class
is that of a commitment. -/
theorem blindEdit_misclassified : ¬ ∀ moves result,
    @movesOf Unit asciiLowercase blindEdit = .ok moves →
    @localize Unit asciiLowercase blindEdit = .ok result → TellsBranch moves result := by
  intro h
  have hlocalize : @localize Unit asciiLowercase blindEdit = .ok (1, .commitShort) := by
    decide +kernel
  have hsilent := (h _ _ blindEdit_moves hlocalize).silent
  exact absurd (hsilent.mpr (by decide +kernel)) (by decide)

omit [Lowercase] in
/-- In the second example the answer tells its branch exactly under its condition. -/
theorem localize_tellsBranch_iff_editedFile : ∃ result,
    @localize Unit asciiLowercase editedFile = .ok result ∧
      (TellsBranch [⟨∅, {"a.py".toList}, false⟩, ⟨{"a.py".toList}, ∅, false⟩] result ↔
        (Owned [⟨∅, {"a.py".toList}, false⟩, (⟨{"a.py".toList}, ∅, false⟩ : Move Text)] ↔
            Confined [⟨∅, {"a.py".toList}, false⟩, ⟨{"a.py".toList}, ∅, false⟩]) ∧
          Names 2 [⟨∅, {"a.py".toList}, false⟩, ⟨{"a.py".toList}, ∅, false⟩]) :=
  letI := asciiLowercase
  localize_tellsBranch_iff (by decide) editedFile_moves

end Tracewake.Localization
