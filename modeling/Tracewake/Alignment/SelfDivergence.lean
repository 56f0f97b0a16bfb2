import Tracewake.Alignment.Divergence
import Tracewake.Alignment.ScoreMatrix

/-!
# A run against itself

No step is more like another step than like itself, so a run is aligned with itself along the
diagonal. It then diverges from itself exactly when it ends in a loop, whose agreements do
not count.
-/

namespace Tracewake.Alignment

open JsonText Recording
open Tracewake.Localization (Lowercase)

/-! ## Self-divergence -/

/-- The columns that pair each index with itself. -/
def identical (n : ℕ) : List Column :=
  (List.range n).map fun i => (some i, some i)

section Matrix

variable {F : Type} [FloatValue F] [FloatText] [Python F] [Matcher] [Lowercase] [Rounding]
  {steps : List (Step F)} {matrix : List (List ℝ)}

/-- The run is aligned with itself. -/
theorem align_self (hne : steps ≠ []) (hsize : steps.length < 2 ^ 63)
    (h : scoreMatrix {} (some lexicalEmbedder) steps steps = .ok matrix) :
    (align (-10 ^ 30) (rounded matrix) (AlignConfig.gaps {}) steps.length steps.length).2 =
      identical steps.length :=
  align_diagonal defaultGaps_negative (rounded_rectangular hne hne h) (rounded_dominant hne h)
    (sentinel_farBelow hsize)

end Matrix

section Runs

variable {F : Type} [FloatValue F] {steps : List (Step F)}

/-- The diagonal is an alignment of a run with itself. -/
theorem identical_isAlignment (n : ℕ) : IsAlignment n n (identical n) := by
  rw [identical, ← diagonal_reverse]
  exact (diagonal_path n).covers.isAlignment

/-- Along the diagonal a run agrees with itself up to its trailing loop. -/
theorem agreed_identical {j : ℕ} : Agreed (identical steps.length) steps steps j ↔
    j < steps.length ∧ ∀ start ∈ trailingIdenticalLoopStart steps, j < start := by
  constructor
  · rintro ⟨i, left, right, hmem, -, hright, -, hloop⟩
    exact ⟨(List.getElem?_eq_some_iff.mp hright).1, hloop⟩
  · rintro ⟨hj, hloop⟩
    refine ⟨j, steps[j], steps[j], ?_, List.getElem?_eq_getElem hj, List.getElem?_eq_getElem hj,
      decide_eq_true ⟨rfl, rfl⟩, hloop⟩
    exact List.mem_map.mpr ⟨j, List.mem_range.mpr hj, rfl⟩

/-- Along the diagonal a run diverges from itself at the start of its trailing loop. -/
theorem divergenceStep_identical (hne : steps ≠ []) :
    divergenceStep (identical steps.length) steps steps =
      .ok ((trailingIdenticalLoopStart steps).map (· + 1)) := by
  obtain ⟨recovered, hle, hbound, hlast, hresult⟩ :=
    divergenceStep_eq (identical_isAlignment steps.length) hne
  have hpos : 0 < steps.length := List.length_pos_iff.mpr hne
  rw [hresult]
  congr 1
  simp only [agreed_identical] at hbound hlast
  cases hloop : trailingIdenticalLoopStart steps with
  | none =>
    have hall := hbound (steps.length - 1) ⟨by omega, by simp [hloop]⟩
    rw [if_neg (by omega)]
    rfl
  | some start =>
    have hstart := trailingIdenticalLoopStart_lt hloop
    have hrecovered : recovered = start := by
      rcases hlast with rfl | ⟨-, hbefore⟩
      · rcases Nat.eq_zero_or_pos start with rfl | hpositive
        · rfl
        · have hmore := hbound (start - 1) ⟨by omega, by simp [hloop]; omega⟩
          omega
      · have hlt := hbefore start hloop
        rcases Nat.eq_zero_or_pos start with rfl | hpositive
        · omega
        · have hmore := hbound (start - 1) ⟨by omega, by simp [hloop]; omega⟩
          omega
    rw [hrecovered, if_pos (by omega)]
    rfl

/-- A run that does not end in a loop does not diverge from itself. -/
theorem divergenceStep_identical_none (hne : steps ≠ []) :
    divergenceStep (identical steps.length) steps steps = .ok none ↔ ¬ EndsInLoop steps := by
  rw [divergenceStep_identical hne, ← trailingIdenticalLoopStart_isSome]
  cases trailingIdenticalLoopStart steps <;> simp

end Runs

section Main

variable {F : Type} [FloatValue F] [FloatText] [Python F] [Matcher] [Lowercase] [Rounding]

/-- A run is aligned with itself along the diagonal, and does not diverge from itself. -/
def SelfAligned (steps : List (Step F)) : Prop :=
  ∃ matrix columns, scoreMatrix {} (some lexicalEmbedder) steps steps = .ok matrix ∧
    (align (-10 ^ 30) (rounded matrix) (AlignConfig.gaps {}) steps.length steps.length).2 =
      columns ∧
    columns = identical steps.length ∧ divergenceStep columns steps steps = .ok none

/-- A run does not diverge from itself exactly when the arguments of its steps can be compared,
and its last two steps are not identical. -/
theorem selfAligned_iff (steps : List (Step F)) (hne : steps ≠ [])
    (hsize : steps.length < 2 ^ 63) : SelfAligned steps ↔
      (∀ x ∈ steps, ∀ y ∈ steps, Convertible x y) ∧ ¬ EndsInLoop steps := by
  rw [← scoreMatrix_isOk hne hne, ← divergenceStep_identical_none hne]
  constructor
  · rintro ⟨matrix, columns, hmatrix, -, rfl, hnone⟩
    exact ⟨⟨matrix, hmatrix⟩, hnone⟩
  · rintro ⟨⟨matrix, hmatrix⟩, hnone⟩
    exact ⟨matrix, _, hmatrix, rfl, align_self hne hsize hmatrix, by
      rw [align_self hne hsize hmatrix]; exact hnone⟩

end Main

/-! A run that ends in two identical steps diverges from itself, and one that comes back to a
step does not. -/

section Demo

local instance selfFloatText : FloatText := Demo.noNumbers

local instance selfMatcher : Matcher := Demo.disjoint

local instance selfLowercase : Lowercase := Localization.asciiLowercase

noncomputable local instance selfRounding : Rounding := Demo.nearest

/-- Reading the same lines twice. -/
theorem selfAligned_loop : ¬ SelfAligned [Demo.readAround 1, Demo.readAround 1] := by
  rintro ⟨matrix, columns, -, -, rfl, hnone⟩
  have hloop := (divergenceStep_identical_none (by decide)).mp hnone
  exact hloop ⟨[], Demo.readAround 1, Demo.readAround 1, rfl, by decide +kernel⟩

/-- The only argument of a call. -/
theorem argument_single {name key : Text} {value v : Value Decimal} :
    argument [(name, value)] key = some v ↔ name = key ∧ value = v := by
  by_cases hkey : name = key <;> simp [argument, hkey]

/-- Reading around lines that a float can hold. -/
theorem readAround_convertible {m n : ℤ} (hm : ¬ Overflows m) (hn : ¬ Overflows n) :
    Convertible (Demo.readAround m) (Demo.readAround n) := by
  intro _ _ key a b _ ha hb _
  have hargument {line : ℤ} {v : Value Decimal}
      (h : argument (Demo.readAround line).args key = some v) :
      key = "around".toList ∧ v = .num (.int line) := by
    obtain ⟨hkey, hvalue⟩ := argument_single.mp h
    exact ⟨hkey.symm, hvalue.symm⟩
  obtain ⟨rfl, rfl⟩ := hargument ha
  obtain ⟨-, rfl⟩ := hargument hb
  have hreadable {k : ℤ} (hk : ¬ Overflows k) : Readable (.num (.int k) : Value Decimal) :=
    ⟨.finite k, by simp [toFloat, hk]⟩
  constructor
  · rintro - (⟨k, heq, hhuge⟩ | ⟨-, k, heq, hhuge⟩)
    · obtain rfl : m = k := by simpa using heq
      exact hm hhuge
    · obtain rfl : n = k := by simpa using heq
      exact hn hhuge
  · exact fun hnot => absurd ⟨.inl rfl, hreadable hm, hreadable hn⟩ hnot

/-- Reading some lines, others, and the first ones again. -/
theorem selfAligned_return :
    SelfAligned [Demo.readAround 1, Demo.readAround 80, Demo.readAround 1] := by
  apply (selfAligned_iff _ (by decide) (by decide)).mpr
  constructor
  · intro x hx y hy
    have hlines : ∀ step ∈ [Demo.readAround 1, Demo.readAround 80, Demo.readAround 1],
        ∃ line, step = Demo.readAround line ∧ ¬ Overflows line := by
      simp only [List.forall_mem_cons, List.not_mem_nil, false_imp_iff, implies_true, and_true]
      exact ⟨⟨1, rfl, by decide +kernel⟩, ⟨80, rfl, by decide +kernel⟩,
        ⟨1, rfl, by decide +kernel⟩⟩
    obtain ⟨m, rfl, hm⟩ := hlines x hx
    obtain ⟨n, rfl, hn⟩ := hlines y hy
    exact readAround_convertible hm hn
  · rintro ⟨front, a, b, heq, hsame⟩
    have hfront : front.length = 1 := by
      have hlength := congrArg List.length heq
      simp only [List.length_append, List.length_cons, List.length_nil] at hlength
      omega
    obtain ⟨-, hlast⟩ := List.append_inj (show [Demo.readAround 1] ++ _ = front ++ _ from heq)
      hfront.symm
    obtain ⟨rfl, hrest⟩ := List.cons.inj hlast
    obtain ⟨rfl, -⟩ := List.cons.inj hrest
    exact absurd hsame (by decide +kernel)

end Demo

end Tracewake.Alignment
