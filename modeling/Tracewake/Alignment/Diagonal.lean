import Tracewake.Alignment.Optimality

/-!
# Matrices with a dominant diagonal

Where no entry of a row is above the one on the diagonal, every gap loses score. So the
diagonal is the only best alignment, and `gotoh` returns it.
-/

namespace Tracewake.Alignment

variable {neg : ℚ} {scores : Scores} {gaps : Gaps} {n : ℕ}

/-- No entry of a row is above the one on the diagonal, which is not negative. -/
structure Dominant (scores : Scores) (n : ℕ) : Prop where
  nonneg : ∀ i < n, 0 ≤ score scores i i
  le : ∀ i < n, ∀ j < n, score scores i j ≤ score scores i i

/-- The columns of the diagonal from the last. -/
def diagonal : ℕ → List Column
  | 0 => []
  | i + 1 => (some i, some i) :: diagonal i

/-- The diagonal in the order of the steps. -/
theorem diagonal_reverse (n : ℕ) :
    (diagonal n).reverse = (List.range n).map fun i => (some i, some i) := by
  induction n with
  | zero => rfl
  | succ n ih => rw [diagonal, List.reverse_cons, ih, List.range_succ, List.map_append]; rfl

/-- The diagonal is a path. -/
theorem diagonal_path (n : ℕ) : Path n n (diagonal n) := by
  induction n with
  | zero => exact .nil
  | succ n ih => exact ih.match

/-- The diagonal has no gap. -/
theorem diagonal_plain (n : ℕ) : Plain (diagonal n) := by
  induction n with
  | zero => exact List.isChain_nil
  | succ n ih =>
    rw [Plain, diagonal, List.isChain_cons]
    constructor
    · intro column _
      constructor
      · rintro ⟨hleft, -⟩
        cases hleft
      · rintro ⟨hright, -⟩
        cases hright
    · exact ih

/-- A column of a gap costs score. -/
theorem gapCost_neg (hgaps : gaps.Negative) (leavesOut : Column → Bool) (before : Option Column) :
    gapCost gaps leavesOut before < 0 := by
  unfold gapCost
  split
  · exact hgaps.gapExtend
  · exact hgaps.gapOpen

/-- No alignment beats the diagonal of its first side, and no other one equals it. -/
theorem path_le_diagonal (hgaps : gaps.Negative) (hdominant : Dominant scores n) {i j : ℕ}
    {columns : List Column} (hpath : Path i j columns) (hi : i ≤ n) (hj : j ≤ n) :
    backwardScore scores gaps columns ≤ backwardScore scores gaps (diagonal i) ∧
      (backwardScore scores gaps columns = backwardScore scores gaps (diagonal i) →
        columns = diagonal i ∧ i = j) := by
  induction hpath with
  | nil => exact ⟨le_refl _, fun _ => ⟨rfl, rfl⟩⟩
  | @«match» i j columns _ ih =>
    obtain ⟨hle, honly⟩ := ih (by omega) (by omega)
    have hs := hdominant.le i (by omega) j (by omega)
    simp only [diagonal, backwardScore, columnScore]
    constructor
    · linarith
    · intro heq
      obtain ⟨rfl, rfl⟩ := honly (by linarith)
      exact ⟨rfl, rfl⟩
  | @leaveRight i j columns _ ih =>
    obtain ⟨hle, -⟩ := ih (by omega) (by omega)
    have hs := hdominant.nonneg i (by omega)
    have hgap := gapCost_neg hgaps Column.isLeft columns.head?
    simp only [diagonal, backwardScore, columnScore]
    constructor
    · linarith
    · intro heq
      exfalso
      linarith
  | @leaveLeft i j columns _ ih =>
    obtain ⟨hle, -⟩ := ih (by omega) (by omega)
    have hgap := gapCost_neg hgaps Column.isRight columns.head?
    simp only [backwardScore, columnScore]
    constructor
    · linarith
    · intro heq
      exfalso
      linarith

/-- On a square with a dominant diagonal `align` returns the diagonal. -/
theorem align_diagonal (hgaps : gaps.Negative) (hscores : Rectangular scores n n)
    (hdominant : Dominant scores n) (hneg : FarBelow neg gaps (n + n)) :
    (align neg scores gaps n n).2 = (List.range n).map fun i => (some i, some i) := by
  rcases Nat.eq_zero_or_pos n with rfl | hn
  · rfl
  obtain ⟨hrows, hwidth⟩ := hscores.size (by omega)
  have hne : n ≠ 0 := by omega
  have halign : align neg scores gaps n n = gotoh neg scores gaps := by
    rw [align, if_neg (fun h => hne h.1), if_neg hne, if_neg hne]
  have hneg' : FarBelow neg gaps (scores.length + width scores) := by rwa [hrows, hwidth]
  obtain ⟨halignment, hscore⟩ := gotoh_attained hgaps hscores.inRange hneg'
  have hgreatest := (gotoh_greatest_plain hgaps hscores.inRange hneg').2
  rw [hrows, hwidth] at halignment hgreatest
  have hpath := halignment.covers.path
  have hle := hgreatest ⟨diagonal n, diagonal_path n, diagonal_plain n, rfl⟩
  obtain ⟨hbound, honly⟩ := path_le_diagonal hgaps hdominant hpath le_rfl le_rfl
  rw [affineScore] at hscore
  rw [← hscore] at hle
  obtain ⟨heq, -⟩ := honly (le_antisymm hbound hle)
  rw [halign, ← diagonal_reverse, ← heq, List.reverse_reverse]

end Tracewake.Alignment
