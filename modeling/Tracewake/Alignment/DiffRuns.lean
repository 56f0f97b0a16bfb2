import Tracewake.Alignment.Divergence
import Tracewake.Alignment.ScoreMatrix

/-!
# Comparing two runs

`diff_runs` extracts the steps of two event logs, aligns them and locates the divergence. It
raises only where an integer is too large for a float or too long to be written, or the failure
run has no steps, and the step that it reports is the one after the last agreement that counts.
-/

namespace Tracewake.Alignment

open JsonText Recording
open Tracewake.Localization (Lowercase)

/-- What `diff_runs` raises. -/
inductive DiffFailure where
  /-- `Exceeds the limit (4300 digits) for integer string conversion`. -/
  | target
  | similarity (failure : Failure)
  | divergence (error : DivergenceError)

/-- The failure is a `ValueError`. -/
def DiffFailure.isValueError : DiffFailure → Bool
  | .target => true
  | .similarity failure => failure = .tooManyDigits
  | .divergence .valueError => true
  | .divergence _ => false

/-- What `diff_runs` finds out about the steps of two runs. -/
structure RunDiff where
  alignment : List Column
  score : ℚ
  divergence : Option ℕ
  /-- `none` is the infinite ratio. -/
  lengthRatio : Option ℚ
  scores : Scores

/-- `length_ratio`. -/
def lengthRatio (a b : ℕ) : Option ℚ :=
  if min a b = 0 then if max a b ≠ 0 then none else some 1
  else some (max a b / min a b)

/-- `divergence_or_end`, of a run with some number of failure steps. -/
def RunDiff.divergenceOrEnd (diff : RunDiff) (bad : ℕ) : ℕ :=
  diff.divergence.getD bad

section Runs

variable {F D : Type} [FloatValue F] [FloatText] [Python F] [Matcher] [Lowercase] [Rounding]

omit [Rounding] in
/-- The matrix that `align` computes: there is none where one side is empty. -/
noncomputable def diffMatrix (good bad : List (Step F)) : Except DiffFailure (List (List ℝ)) :=
  if good = [] ∨ bad = [] then .ok []
  else (scoreMatrix {} (some lexicalEmbedder) good bad).mapError .similarity

/-- `diff_runs` on the steps of two runs, with the lexical embedder. -/
noncomputable def diffSteps (good bad : List (Step F)) : Except DiffFailure RunDiff := do
  let matrix ← diffMatrix good bad
  let scores := rounded matrix
  let (total, pairs) := align (-10 ^ 30) scores (AlignConfig.gaps {}) good.length bad.length
  let divergence ← (divergenceStep pairs good bad).mapError .divergence
  return {
    alignment := pairs, score := total, divergence
    lengthRatio := lengthRatio good.length bad.length, scores }

/-- If the event is a tool call, its target can be written. -/
def TargetedEvent : Event F D → Prop
  | .toolCall tool => Targeted tool.args
  | _ => True

instance : (event : Event F D) → Decidable (TargetedEvent event)
  | .toolCall tool => inferInstanceAs (Decidable (Targeted tool.args))
  | .modelCall _ | .environment _ | .fsRead _ | .fsWrite _ | .outcome _ | .intervention _ =>
    isTrue trivial

/-- The targets of all tool calls can be written. -/
def AllTargeted (events : List (StoredEvent F D)) : Prop :=
  ∀ e ∈ events, TargetedEvent e.event

instance (events : List (StoredEvent F D)) : Decidable (AllTargeted events) :=
  inferInstanceAs (Decidable (∀ e ∈ events, TargetedEvent e.event))

/-- `diff_runs`: the steps are extracted where their targets can be written. -/
noncomputable def diffRuns [Sha256 D] (good bad : List (StoredEvent F D))
    (appendSubmitGood appendSubmitBad : Bool) : Except DiffFailure RunDiff :=
  if AllTargeted good ∧ AllTargeted bad then
    diffSteps (extractSteps appendSubmitGood good) (extractSteps appendSubmitBad bad)
  else .error .target

section Steps

variable {good bad : List (Step F)}

omit [FloatValue F] [FloatText] [Python F] [Matcher] [Lowercase] [Rounding] in
/-- `align` attains its total, also where one side is empty. -/
theorem align_attained {neg : ℚ} {scores : Scores} {gaps : Gaps} {n m : ℕ}
    (hgaps : gaps.Negative) (hneg : FarBelow neg gaps (n + m))
    (hscores : n ≠ 0 → m ≠ 0 → Rectangular scores n m) :
    Attained scores gaps n m (align neg scores gaps n m) := by
  unfold align
  split
  · next h =>
    obtain ⟨rfl, rfl⟩ := h
    exact attained_empty scores gaps
  next hboth =>
  split
  · next hn =>
    subst hn
    exact attained_right scores gaps fun hm => hboth ⟨rfl, hm⟩
  next hn =>
  split
  · next hm =>
    subst hm
    exact attained_left scores gaps hn
  next hm =>
  have hrectangular := hscores hn hm
  obtain ⟨hrows, hwidth⟩ := hrectangular.size fun h => absurd h hn
  rw [← hrows, ← hwidth] at hneg ⊢
  exact gotoh_attained hgaps hrectangular.inRange hneg

omit [FloatValue F] [FloatText] [Python F] [Matcher] [Lowercase] [Rounding] in
/-- The sentinel lies far below the tables of any sides that a machine can hold. -/
theorem sentinel_farBelow_add {n m : ℕ} (hn : n < 2 ^ 63) (hm : m < 2 ^ 63) :
    FarBelow (-10 ^ 30) (AlignConfig.gaps {}) (n + m) := by
  have hmax : n + m ≤ max n m + max n m := by omega
  exact (sentinel_farBelow (max_lt hn hm)).mono defaultGaps_negative hmax

omit [Rounding] in
/-- The matrix of a comparison is the score matrix where neither side is empty. -/
theorem diffMatrix_ok (hgood : good ≠ []) (hbad : bad ≠ []) {matrix : List (List ℝ)} :
    diffMatrix good bad = .ok matrix ↔
      scoreMatrix {} (some lexicalEmbedder) good bad = .ok matrix := by
  rw [diffMatrix, if_neg (by simp [hgood, hbad])]
  cases scoreMatrix {} (some lexicalEmbedder) good bad <;> simp [Except.mapError]

omit [Rounding] in
/-- The matrix is computed exactly if the arguments of every pair can be converted. -/
theorem diffMatrix_isOk (hbad : bad ≠ []) :
    (∃ matrix, diffMatrix good bad = .ok matrix) ↔ ∀ x ∈ good, ∀ y ∈ bad, Convertible x y := by
  by_cases hgood : good = []
  · simp [diffMatrix, hgood]
  · rw [← scoreMatrix_isOk hgood hbad]
    exact exists_congr fun matrix => diffMatrix_ok hgood hbad

/-- The matrix is as high as the good side and as wide as the bad one. -/
theorem diffMatrix_rectangular {matrix : List (List ℝ)} (h : diffMatrix good bad = .ok matrix)
    (hn : good.length ≠ 0) (hm : bad.length ≠ 0) :
    Rectangular (rounded matrix) good.length bad.length := by
  have hgood : good ≠ [] := List.length_pos_iff.mp (by omega)
  have hbad : bad ≠ [] := List.length_pos_iff.mp (by omega)
  exact rounded_rectangular hgood hbad ((diffMatrix_ok hgood hbad).mp h)

/-- What a comparison that returns has computed. -/
theorem diffSteps_ok {diff : RunDiff} (h : diffSteps good bad = .ok diff) :
    ∃ matrix, diffMatrix good bad = .ok matrix ∧ diff.scores = rounded matrix ∧
      (diff.score, diff.alignment) = align (-10 ^ 30) (rounded matrix) (AlignConfig.gaps {})
        good.length bad.length ∧
      divergenceStep diff.alignment good bad = .ok diff.divergence := by
  unfold diffSteps at h
  cases hmatrix : diffMatrix good bad with
  | error e =>
    rw [hmatrix] at h
    cases h
  | ok matrix =>
    simp only [hmatrix, bind, Except.bind] at h
    cases hstep : divergenceStep (align (-10 ^ 30) (rounded matrix) (AlignConfig.gaps {})
        good.length bad.length).2 good bad with
    | error e =>
      rw [hstep] at h
      cases h
    | ok divergence =>
      rw [hstep] at h
      obtain rfl := Except.ok.inj h
      exact ⟨matrix, rfl, rfl, rfl, hstep⟩

/-- The alignment of a comparison has its score. -/
theorem diffSteps_attained {diff : RunDiff} (hgood : good.length < 2 ^ 63)
    (hbad : bad.length < 2 ^ 63) (h : diffSteps good bad = .ok diff) :
    Attained diff.scores (AlignConfig.gaps {}) good.length bad.length
      (diff.score, diff.alignment) := by
  obtain ⟨matrix, hmatrix, hscores, halign, -⟩ := diffSteps_ok h
  rw [hscores, halign]
  exact align_attained defaultGaps_negative (sentinel_farBelow_add hgood hbad)
    (diffMatrix_rectangular hmatrix)

/-- Two runs are compared exactly when the arguments of any two of their steps can be
compared. -/
theorem diffSteps_isOk (hgood : good.length < 2 ^ 63) (hbad : bad.length < 2 ^ 63)
    (hne : bad ≠ []) :
    (∃ diff, diffSteps good bad = .ok diff) ↔ ∀ x ∈ good, ∀ y ∈ bad, Convertible x y := by
  rw [← diffMatrix_isOk hne]
  constructor
  · rintro ⟨diff, hdiff⟩
    obtain ⟨matrix, hmatrix, -⟩ := diffSteps_ok hdiff
    exact ⟨matrix, hmatrix⟩
  · rintro ⟨matrix, hmatrix⟩
    have hattained := align_attained defaultGaps_negative (sentinel_farBelow_add hgood hbad)
      (diffMatrix_rectangular hmatrix)
    obtain ⟨recovered, -, -, -, hdivergence⟩ := divergenceStep_eq hattained.alignment hne
    rw [diffSteps, hmatrix]
    simp only [bind, Except.bind, hdivergence, Except.mapError]
    exact ⟨_, rfl⟩

end Steps

/-- A comparison of two runs whose alignment is sound, and whose divergence is the failure step
after the last one that counts as an agreement. -/
structure RunDiff.Sound (diff : RunDiff) (good bad : List (Step F)) : Prop where
  attained : Attained diff.scores (AlignConfig.gaps {}) good.length bad.length
    (diff.score, diff.alignment)
  divergence : ∃ recovered ≤ bad.length,
    (∀ j, Agreed diff.alignment good bad j → j < recovered) ∧
    (recovered = 0 ∨ Agreed diff.alignment good bad (recovered - 1)) ∧
    diff.divergence = if recovered < bad.length then some (recovered + 1) else none
  /-- A trailing loop is never recovered from. -/
  loop : ∀ start ∈ trailingIdenticalLoopStart bad, ∃ k ≤ start + 1, diff.divergence = some k
  range : 1 ≤ diff.divergenceOrEnd bad.length ∧ diff.divergenceOrEnd bad.length ≤ bad.length

/-- What a comparison returns is sound. -/
theorem diffSteps_sound {good bad : List (Step F)} {diff : RunDiff} (hgood : good.length < 2 ^ 63)
    (hbad : bad.length < 2 ^ 63) (h : diffSteps good bad = .ok diff) : diff.Sound good bad := by
  have hattained := diffSteps_attained hgood hbad h
  obtain ⟨_, -, -, -, hstep⟩ := diffSteps_ok h
  have hne : bad ≠ [] := by
    intro hempty
    rw [divergenceStep, if_pos hempty] at hstep
    cases hstep
  have hpos : 0 < bad.length := List.length_pos_iff.mpr hne
  obtain ⟨recovered, hle, hbound, hlast, heq⟩ := divergenceStep_eq hattained.alignment hne
  have hdivergence := Except.ok.inj (hstep.symm.trans heq)
  refine ⟨hattained, ⟨recovered, hle, hbound, hlast, hdivergence⟩, ?_, ?_⟩
  · intro start hstart
    have hlt := trailingIdenticalLoopStart_lt (Option.mem_def.mp hstart)
    have hrecovered : recovered ≤ start := by
      rcases hlast with rfl | ⟨_, _, _, _, _, _, _, hloop⟩
      · omega
      · have hbefore := hloop start hstart
        omega
    have hmore : recovered < bad.length := by omega
    exact ⟨recovered + 1, by omega, by rw [hdivergence, if_pos hmore]⟩
  · rw [RunDiff.divergenceOrEnd, hdivergence]
    split
    · rw [Option.getD_some]
      omega
    · rw [Option.getD_none]
      omega

end Runs

/-! One test run before the submission, compared with none. -/

namespace Demo

/-- A run of the tests. -/
def tested : StoredEvent Decimal HexDigest :=
  ⟨"run".toList, 0, .toolCall {
    parentCallId := "c".toList, toolCallId := "t".toList, batchIndex := 0
    name := "run_tests".toList, args := .empty, argsHash := []
    result := ⟨Sha256.hash [], 0⟩, status := .ok, error := none
    eventMeta := ⟨Recording.half, none, none⟩ }⟩

end Demo

section Demo

local instance diffFloatText : FloatText := Demo.noNumbers

local instance diffMatcher : Matcher := Demo.disjoint

local instance diffLowercase : Lowercase := Localization.asciiLowercase

noncomputable local instance diffRounding : Rounding := Demo.nearest

/-- In the example no step has an argument. -/
theorem tested_args : ∀ x ∈ extractSteps true [Demo.tested], x.args = [] := by
  have hall : (extractSteps true [Demo.tested]).all (fun x => x.args.isEmpty) = true := by
    decide +kernel
  intro x hx
  exact List.isEmpty_iff.mp (List.all_eq_true.mp hall x hx)

end Demo

end Tracewake.Alignment
