import Tracewake.Alignment.Diagonal
import Tracewake.Alignment.SimilarityBounds

/-!
# The matrix of two runs

With the lexical embedder and the default weights the matrix of two runs is found exactly when
no comparison meets a number that is too large. Its entries are scores, and no step is more
like another step than like itself.
-/

namespace Tracewake.Alignment

open JsonText Recording
open Tracewake.Localization (Lowercase)

/-- Rounding to a floating point number. -/
class Rounding where
  round : ℝ → ℚ
  monotone : Monotone round
  round_neg_one : round (-1) = -1
  round_zero : round 0 = 0
  round_one : round 1 = 1

/-- The costs of `DEFAULT_CONFIG`. -/
def AlignConfig.gaps (config : AlignConfig) : Gaps := ⟨config.gapOpen, config.gapExtend⟩

/-- The default penalties are negative. -/
theorem defaultGaps_negative : (AlignConfig.gaps {}).Negative :=
  ⟨by norm_num [AlignConfig.gaps], by norm_num [AlignConfig.gaps]⟩

/-- The sentinel is below the score of every list that fits into memory. -/
theorem sentinel_farBelow {n : ℕ} (h : n < 2 ^ 63) :
    FarBelow (-10 ^ 30) (AlignConfig.gaps {}) (n + n) := by
  have hcast : (n : ℚ) < 2 ^ 63 := by exact_mod_cast h
  have hbound : (n : ℚ) < 10 ^ 29 := hcast.trans (by norm_num)
  simp only [FarBelow, AlignConfig.gaps, Nat.cast_add]
  linarith

/-! ## Steps and vectors -/

section Steps

variable {F : Type} [FloatValue F] [FloatText] [Python F] [Matcher] [Lowercase] {x y : Step F}
  {u v : List ℚ}

/-- The similarity is found exactly when no comparison meets a number that is too large. -/
theorem stepSimilarity_isOk (hlength : u.length = v.length) :
    (∃ s, stepSimilarity {} (some (u, v)) x y = .ok s) ↔ Convertible x y := by
  constructor
  · rintro ⟨s, hs⟩
    exact argumentSimilarity_isOk.mp (exists_arguments hs)
  · intro hconvertible
    obtain ⟨arguments, harguments⟩ := argumentSimilarity_isOk.mpr hconvertible
    obtain ⟨reasoning, hreasoning⟩ := cosine_isOk.mpr hlength
    exact ⟨_, stepSimilarity_of_ok harguments hreasoning⟩

omit [FloatValue F] [FloatText] [Python F] [Matcher] [Lowercase] in
/-- A zero vector is like no other. -/
theorem cosine_of_zero {s : ℝ} (hzero : ∀ c ∈ u, c = 0) (h : cosine u v = .ok s) : s = 0 := by
  unfold cosine at h
  split at h
  · cases h
  · have hdot : Real.sqrt (dot u u) = 0 := by
      rw [dot_self_eq_zero.mpr hzero, Rat.cast_zero, Real.sqrt_zero]
    simp only [hdot, true_or, if_true] at h
    exact (Except.ok.inj h).symm

omit [FloatText] [Python F] [Matcher] [Lowercase] in
/-- A step agrees with itself. -/
theorem agreeing_self (x : Step F) : Agreeing x x where
  name := rfl
  args := List.forall₂_same.mpr fun entry _ => ⟨rfl, equal_refl entry.2⟩
  target := rfl
  reasoning := rfl
  changedFiles := rfl
  batchNames := rfl
  batchTargets := rfl

/-- How alike a step is to itself. -/
theorem stepSimilarity_self (x : Step F) (u : List ℚ) : ∃ s,
    stepSimilarity {} (some (u, u)) x x = .ok s ∧ (80 / 100 : ℝ) ≤ s ∧
      ((∃ c ∈ u, c ≠ 0) → s = 1) := by
  refine ⟨_, stepSimilarity_of_ok (argumentSimilarity_of_agreeing (agreeing_self x))
    (cosine_self u), ?_, ?_⟩
  · rw [known_of_agreeing (agreeing_self x)]
    split <;> norm_num
  · rintro ⟨c, hc, hne⟩
    rw [known_of_agreeing (agreeing_self x), if_neg fun hall => hne (hall c hc)]
    norm_num

/-- No step is more like another step than like itself. -/
theorem stepSimilarity_le_self {s t : ℝ} (h : stepSimilarity {} (some (u, v)) x y = .ok s)
    (hlength : u.length = v.length) (hself : stepSimilarity {} (some (u, u)) x x = .ok t) :
    s ∈ Set.Icc (0 : ℝ) 1 ∧ s ≤ t := by
  obtain ⟨arguments, harguments⟩ := exists_arguments h
  obtain ⟨reasoning, hreasoning⟩ := cosine_isOk.mpr hlength
  rw [stepSimilarity_of_ok harguments hreasoning] at h
  have hs := Except.ok.inj h
  have hreasoning_mem := cosine_mem hreasoning
  have hknown : known arguments x y ∈ Set.Icc (0 : ℚ) (80 / 100) :=
    known_mem (argumentSimilarity_mem harguments)
  have hlow : (0 : ℝ) ≤ (known arguments x y : ℚ) := by exact_mod_cast hknown.1
  have hhigh : ((known arguments x y : ℚ) : ℝ) ≤ 80 / 100 := by
    have hcast := (Rat.cast_le (K := ℝ)).mpr hknown.2
    norm_num at hcast ⊢
    exact hcast
  push_cast at hs
  obtain ⟨hzero, hone⟩ := hreasoning_mem
  refine ⟨⟨by linarith, by linarith⟩, ?_⟩
  obtain ⟨t', ht', hleast, hworded⟩ := stepSimilarity_self x u
  obtain rfl := Except.ok.inj (hself.symm.trans ht')
  by_cases hu : ∀ c ∈ u, c = 0
  · rw [cosine_of_zero hu hreasoning] at hs
    linarith
  · simp only [not_forall] at hu
    obtain ⟨c, hc, hne⟩ := hu
    rw [hworded ⟨c, hc, hne⟩]
    linarith

end Steps

/-! ## The matrix -/

section Matrix

variable {F : Type} [FloatValue F] [FloatText] [Python F] [Matcher] [Lowercase]
  {good bad : List (Step F)}

/-- The vector of a step when two runs are compared. -/
def vectorIn (good bad : List (Step F)) (x : Step F) : List ℚ :=
  countVector (firsts (((good ++ bad).map fun step => step.reasoning).map lexicalTokens).flatten)
    (lexicalTokens x.reasoning)

omit [FloatValue F] [FloatText] [Python F] [Matcher] in
/-- All vectors have one entry for each word of the common vocabulary. -/
theorem vectorIn_length (good bad : List (Step F)) (x y : Step F) :
    (vectorIn good bad x).length = (vectorIn good bad y).length := by
  rw [vectorIn, vectorIn, countVector_length, countVector_length]

/-- The score of two steps when two runs are compared. -/
noncomputable def scoreIn (good bad : List (Step F)) (x y : Step F) : Except Failure ℝ := do
  let similarity ← stepSimilarity {} (some (vectorIn good bad x, vectorIn good bad y)) x y
  return scoreFromSimilarity similarity

/-- A score is computed exactly if the arguments of the steps can be converted. -/
theorem scoreIn_isOk {x y : Step F} : (∃ s, scoreIn good bad x y = .ok s) ↔ Convertible x y := by
  rw [← stepSimilarity_isOk (vectorIn_length good bad x y), scoreIn]
  cases stepSimilarity {} (some (vectorIn good bad x, vectorIn good bad y)) x y with
  | error e => simp [bind, Except.bind]
  | ok s => simp [bind, Except.bind, pure, Except.pure]

/-- A score is twice the similarity less 1. -/
theorem scoreIn_ok {x y : Step F} {c : ℝ} (h : scoreIn good bad x y = .ok c) : ∃ s,
    stepSimilarity {} (some (vectorIn good bad x, vectorIn good bad y)) x y = .ok s ∧
      c = 2 * s - 1 := by
  rw [scoreIn] at h
  cases hs : stepSimilarity {} (some (vectorIn good bad x, vectorIn good bad y)) x y with
  | error e =>
    rw [hs] at h
    cases h
  | ok s =>
    rw [hs] at h
    exact ⟨s, rfl, (Except.ok.inj h).symm⟩

/-- The matrix holds the scores of the steps. -/
theorem scoreMatrix_eq (hgood : good ≠ []) (hbad : bad ≠ []) :
    scoreMatrix {} (some lexicalEmbedder) good bad =
      good.mapM fun x => bad.mapM fun y => scoreIn good bad x y := by
  have hvectors : lexicalEmbedder ((good ++ bad).map fun step => step.reasoning) =
      good.map (vectorIn good bad) ++ bad.map (vectorIn good bad) := by
    rw [← List.map_append, lexicalEmbedder]
    simp only [List.map_map]
    apply List.map_congr_left
    intro x _
    simp only [vectorIn, List.map_map, Function.comp_apply]
  have hzip (l : List (Step F)) : l.zip ((l.map (vectorIn good bad)).map some) =
      l.map fun x => (x, some (vectorIn good bad x)) := by
    rw [List.map_map, List.zip, List.zipWith_map_right, List.zipWith_self]
    rfl
  have hweight : (AlignConfig.weightReasoning {}) ≠ 0 := by norm_num
  rw [scoreMatrix, if_neg (by simp [hgood, hbad])]
  simp only [if_pos hweight, vectorsOf_lexicalEmbedder, hvectors, Except.map, bind, Except.bind]
  rw [List.take_left' (by simp), List.drop_left' (by simp), hzip, hzip, List.mapM_map]
  congr 1
  funext x
  rw [Function.comp_apply, scoreRow, List.mapM_map]
  rfl

/-- The matrix is computed exactly if the arguments of every pair of steps can be
converted. -/
theorem scoreMatrix_isOk (hgood : good ≠ []) (hbad : bad ≠ []) :
    (∃ matrix, scoreMatrix {} (some lexicalEmbedder) good bad = .ok matrix) ↔
      ∀ x ∈ good, ∀ y ∈ bad, Convertible x y := by
  rw [scoreMatrix_eq hgood hbad, Sequences.mapM_isOk]
  refine forall₂_congr fun x _ => ?_
  rw [Sequences.mapM_isOk]
  exact forall₂_congr fun y _ => scoreIn_isOk

variable {matrix : List (List ℝ)}

/-- The entries of the matrix are the scores of the pairs, row by row. -/
theorem scoreMatrix_entries (hgood : good ≠ []) (hbad : bad ≠ [])
    (h : scoreMatrix {} (some lexicalEmbedder) good bad = .ok matrix) :
    List.Forall₂ (fun x line => List.Forall₂ (fun y c => scoreIn good bad x y = .ok c) bad line)
      good matrix := by
  rw [scoreMatrix_eq hgood hbad] at h
  exact (Sequences.forall₂_of_mapM_ok h).imp fun x line hline =>
    Sequences.forall₂_of_mapM_ok hline

variable [Rounding]

/-- The scores as floating point numbers. -/
def rounded (matrix : List (List ℝ)) : Scores :=
  matrix.map fun line => line.map Rounding.round

/-- An entry of the matrix is the rounded score of its pair. -/
theorem score_rounded (hgood : good ≠ []) (hbad : bad ≠ [])
    (h : scoreMatrix {} (some lexicalEmbedder) good bad = .ok matrix) {i j : ℕ} {x y : Step F}
    (hx : good[i]? = some x) (hy : bad[j]? = some y) :
    ∃ c, scoreIn good bad x y = .ok c ∧ score (rounded matrix) i j = Rounding.round c := by
  obtain ⟨line, hline, hentries⟩ :=
    Sequences.forall₂_getElem? (scoreMatrix_entries hgood hbad h) hx
  obtain ⟨c, hc, hscore⟩ := Sequences.forall₂_getElem? hentries hy
  refine ⟨c, hscore, ?_⟩
  simp [score, rounded, List.getD_eq_getElem?_getD, hline, hc]

/-- A score lies between -1 and 1, also after rounding. -/
theorem scoreIn_mem {x y : Step F} {c : ℝ} (h : scoreIn good bad x y = .ok c) :
    -1 ≤ Rounding.round c ∧ Rounding.round c ≤ 1 := by
  obtain ⟨s, hs, rfl⟩ := scoreIn_ok h
  obtain ⟨t, ht, -, -⟩ := stepSimilarity_self x (vectorIn good bad x)
  obtain ⟨⟨hzero, hone⟩, -⟩ := stepSimilarity_le_self hs (vectorIn_length good bad x y) ht
  constructor
  · rw [← Rounding.round_neg_one]
    apply Rounding.monotone
    linarith
  · rw [← Rounding.round_one]
    apply Rounding.monotone
    linarith

/-- The matrix has a row for each good step and a column for each bad one. -/
theorem rounded_rectangular (hgood : good ≠ []) (hbad : bad ≠ [])
    (h : scoreMatrix {} (some lexicalEmbedder) good bad = .ok matrix) :
    Rectangular (rounded matrix) good.length bad.length where
  rows := by
    rw [rounded, List.length_map]
    exact (scoreMatrix_entries hgood hbad h).length_eq.symm
  columns line hline := by
    obtain ⟨entries, hentries, rfl⟩ := List.mem_map.mp hline
    obtain ⟨x, -, hx⟩ :=
      Sequences.exists_of_mem_forall₂ (scoreMatrix_entries hgood hbad h) hentries
    rw [List.length_map]
    exact hx.length_eq.symm
  range line hline s hs := by
    obtain ⟨entries, hentries, rfl⟩ := List.mem_map.mp hline
    obtain ⟨x, -, hx⟩ :=
      Sequences.exists_of_mem_forall₂ (scoreMatrix_entries hgood hbad h) hentries
    obtain ⟨c, hc, rfl⟩ := List.mem_map.mp hs
    obtain ⟨y, -, hy⟩ := Sequences.exists_of_mem_forall₂ hx hc
    exact scoreIn_mem hy

/-- In the matrix of a run against itself the diagonal dominates. -/
theorem rounded_dominant (hne : good ≠ [])
    (h : scoreMatrix {} (some lexicalEmbedder) good good = .ok matrix) :
    Dominant (rounded matrix) good.length where
  nonneg i hi := by
    obtain ⟨c, hc, hscore⟩ := score_rounded hne hne h (List.getElem?_eq_getElem hi)
      (List.getElem?_eq_getElem hi)
    obtain ⟨s, hs, rfl⟩ := scoreIn_ok hc
    obtain ⟨t, ht, hleast, -⟩ := stepSimilarity_self good[i] (vectorIn good good good[i])
    obtain rfl := Except.ok.inj (hs.symm.trans ht)
    rw [hscore, ← Rounding.round_zero]
    apply Rounding.monotone
    linarith
  le i hi j hj := by
    obtain ⟨c, hc, hscore⟩ := score_rounded hne hne h (List.getElem?_eq_getElem hi)
      (List.getElem?_eq_getElem hj)
    obtain ⟨c', hc', hself⟩ := score_rounded hne hne h (List.getElem?_eq_getElem hi)
      (List.getElem?_eq_getElem hi)
    obtain ⟨s, hs, rfl⟩ := scoreIn_ok hc
    obtain ⟨t, ht, rfl⟩ := scoreIn_ok hc'
    obtain ⟨-, hle⟩ := stepSimilarity_le_self hs (vectorIn_length good good _ _) ht
    rw [hscore, hself]
    apply Rounding.monotone
    linarith

end Matrix

namespace Demo

/-- Rounding to a multiple of `2 ** -53`. -/
noncomputable def roundNearest (x : ℝ) : ℚ :=
  ⌊x * (2 ^ 53 : ℕ) + 1 / (2 : ℕ)⌋ / (2 ^ 53 : ℕ)

/-- Rounding to the nearest float keeps the order. -/
theorem roundNearest_monotone : Monotone roundNearest := by
  intro x y hxy
  have hfloor : ⌊x * (2 ^ 53 : ℕ) + 1 / (2 : ℕ)⌋ ≤ ⌊y * (2 ^ 53 : ℕ) + 1 / (2 : ℕ)⌋ := by
    apply Int.floor_le_floor
    gcongr
  have hcast : (⌊x * (2 ^ 53 : ℕ) + 1 / (2 : ℕ)⌋ : ℚ) ≤ ⌊y * (2 ^ 53 : ℕ) + 1 / (2 : ℕ)⌋ := by
    exact_mod_cast hfloor
  exact div_le_div_of_nonneg_right hcast (by norm_num)

/-- Rounding keeps -1. -/
theorem roundNearest_neg_one : roundNearest (-1) = -1 := by norm_num [roundNearest]

/-- Rounding keeps 0. -/
theorem roundNearest_zero : roundNearest 0 = 0 := by norm_num [roundNearest]

/-- Rounding keeps 1. -/
theorem roundNearest_one : roundNearest 1 = 1 := by norm_num [roundNearest]

@[reducible] noncomputable def nearest : Rounding where
  round := roundNearest
  monotone := roundNearest_monotone
  round_neg_one := roundNearest_neg_one
  round_zero := roundNearest_zero
  round_one := roundNearest_one

end Demo

end Tracewake.Alignment
