import Tracewake.Alignment.Optimality

/-!
# Equal gap costs

With `gap_open = gap_extend = -1` a gap after a gap of the other side costs as much as two
mismatches, so leaving those transitions out loses nothing: the best of the three tables
satisfies the recurrence of Needleman and Wunsch.
-/

namespace Tracewake.Alignment

variable {neg : ℚ} {scores : Scores} {n m : ℕ}

/-- `needleman_wunsch_config`: every gap column costs the open penalty. -/
def needlemanWunschConfig : Gaps := ⟨-1, -1⟩

/-- The recurrence with one matrix. -/
def needlemanWunsch (scores : Scores) : ℕ → ℕ → ℚ
  | 0, j => -j
  | i + 1, 0 => -(i + 1 : ℕ)
  | i + 1, j + 1 =>
    max (max (needlemanWunsch scores i j + score scores i j) (needlemanWunsch scores i (j + 1) - 1))
      (needlemanWunsch scores (i + 1) j - 1)
termination_by i j => i + j

/-- The penalties of the comparison with one table are negative. -/
theorem needlemanWunschConfig_negative : needlemanWunschConfig.Negative :=
  ⟨by norm_num [needlemanWunschConfig], by norm_num [needlemanWunschConfig]⟩

/-- A gap costs 1 for each of its steps. -/
theorem run_needlemanWunschConfig (length : ℕ) :
    needlemanWunschConfig.run length = -(length + 1 : ℕ) := by
  simp only [needlemanWunschConfig, Gaps.run]
  push_cast
  ring

/-- Leaving out one more index of the first side costs one, also after a gap of the other
side, which is exchanged for a match column. -/
theorem best_above_le (hrange : InRange scores) {i j : ℕ}
    (hneg : FarBelow neg needlemanWunschConfig (i + 1 + (j + 1))) :
    (row neg scores needlemanWunschConfig i (j + 1)).best - 1 ≤
      (row neg scores needlemanWunschConfig (i + 1) (j + 1)).best := by
  have hgaps := needlemanWunschConfig_negative
  have hm := (row neg scores needlemanWunschConfig (i + 1) (j + 1)).value_le_best .M
  have hx := (row neg scores needlemanWunschConfig (i + 1) (j + 1)).value_le_best .X
  obtain ⟨hopens, hextends⟩ := gap_le_x scores hgaps hneg
  have hy := y_succ_le scores hgaps le_rfl (hneg.mono hgaps (by omega : i + (j + 1) ≤ _))
  have hs := (hrange i j).1
  simp only [Cell.value, m_succ, needlemanWunschConfig] at hm hx hopens hextends hy ⊢
  have hbest : (row neg scores ⟨-1, -1⟩ i (j + 1)).best ≤
      (row neg scores ⟨-1, -1⟩ (i + 1) (j + 1)).best + 1 := by
    apply Cell.best_le
    intro table
    cases table <;> simp only [Cell.value] <;> linarith
  linarith

/-- Leaving out one more index of the second side costs one. -/
theorem best_left_le (hrange : InRange scores) {i j : ℕ}
    (hneg : FarBelow neg needlemanWunschConfig (i + 1 + (j + 1))) :
    (row neg scores needlemanWunschConfig (i + 1) j).best - 1 ≤
      (row neg scores needlemanWunschConfig (i + 1) (j + 1)).best := by
  have hgaps := needlemanWunschConfig_negative
  have hm := (row neg scores needlemanWunschConfig (i + 1) (j + 1)).value_le_best .M
  have hy := (row neg scores needlemanWunschConfig (i + 1) (j + 1)).value_le_best .Y
  obtain ⟨hopens, hextends⟩ := gap_le_y scores hgaps hneg
  have hx := x_succ_le scores hgaps le_rfl (hneg.mono hgaps (by omega : i + 1 + j ≤ _))
  have hs := (hrange i j).1
  simp only [Cell.value, m_succ, needlemanWunschConfig] at hm hy hopens hextends hx ⊢
  have hbest : (row neg scores ⟨-1, -1⟩ (i + 1) j).best ≤
      (row neg scores ⟨-1, -1⟩ (i + 1) (j + 1)).best + 1 := by
    apply Cell.best_le
    intro table
    cases table <;> simp only [Cell.value] <;> linarith
  linarith

/-- The step of the recurrence, for the best of the three tables. -/
theorem best_succ (hrange : InRange scores) {i j : ℕ}
    (hneg : FarBelow neg needlemanWunschConfig (i + 1 + (j + 1))) :
    (row neg scores needlemanWunschConfig (i + 1) (j + 1)).best =
      max (max ((row neg scores needlemanWunschConfig i j).best + score scores i j)
        ((row neg scores needlemanWunschConfig i (j + 1)).best - 1))
        ((row neg scores needlemanWunschConfig (i + 1) j).best - 1) := by
  have hgaps := needlemanWunschConfig_negative
  apply le_antisymm
  · have hx := (x_succ_le scores hgaps le_rfl hneg).trans_eq (sub_eq_add_neg _ _).symm
    have hy := (y_succ_le scores hgaps le_rfl hneg).trans_eq (sub_eq_add_neg _ _).symm
    apply Cell.best_le
    intro table
    cases table with
    | M => exact le_max_of_le_left (le_max_left _ _)
    | X => exact le_max_of_le_left (le_max_of_le_right hx)
    | Y => exact le_max_of_le_right hy
  · have hm := (row neg scores needlemanWunschConfig (i + 1) (j + 1)).value_le_best .M
    exact max_le (max_le hm (best_above_le hrange hneg)) (best_left_le hrange hneg)

/-- The border of the tables. -/
theorem best_zero (neg : ℚ) (scores : Scores) (j : ℕ)
    (hneg : FarBelow neg needlemanWunschConfig j) :
    (row neg scores needlemanWunschConfig 0 j).best = -j := by
  cases j with
  | zero =>
    have hbelow : neg < 0 := by simpa [FarBelow] using hneg
    simp [row_zero_zero, Cell.best, hbelow.le]
  | succ j =>
    have hbelow : neg < lowest needlemanWunschConfig (j + 1) := hneg
    have hrun := lowest_le_run needlemanWunschConfig_negative j
    rw [row_zero_succ, ← run_needlemanWunschConfig]
    simp only [Cell.best, max_self]
    exact max_eq_right (by linarith)

/-- In the first column the best value is that of one gap. -/
theorem best_succ_zero (neg : ℚ) (scores : Scores) (i : ℕ)
    (hneg : FarBelow neg needlemanWunschConfig (i + 1)) :
    (row neg scores needlemanWunschConfig (i + 1) 0).best = -(i + 1 : ℕ) := by
  have hbelow : neg < lowest needlemanWunschConfig (i + 1) := hneg
  have hrun := lowest_le_run needlemanWunschConfig_negative i
  rw [row_succ_zero, ← run_needlemanWunschConfig]
  simp only [Cell.best]
  rw [max_eq_left (le_max_left _ _), max_eq_right (by linarith)]

/-- The best of the three tables is the one matrix. -/
theorem best_eq_needlemanWunsch (hrange : InRange scores) (i j : ℕ)
    (hneg : FarBelow neg needlemanWunschConfig (i + j)) :
    (row neg scores needlemanWunschConfig i j).best = needlemanWunsch scores i j := by
  have hgaps := needlemanWunschConfig_negative
  induction i generalizing j with
  | zero =>
    rw [needlemanWunsch, best_zero neg scores j (by simpa using hneg)]
  | succ i ihi =>
    induction j with
    | zero => rw [needlemanWunsch, best_succ_zero neg scores i hneg]
    | succ j ihj =>
      rw [needlemanWunsch, best_succ hrange hneg, ihi j (hneg.mono hgaps (by omega)),
        ihi (j + 1) (hneg.mono hgaps (by omega)), ihj (hneg.mono hgaps (by omega))]

/-- With equal gap costs `gotoh` computes the recurrence with one matrix. -/
theorem gotoh_eq_needlemanWunsch (neg : ℚ) (scores : Scores) (n m : ℕ)
    (hscores : Rectangular scores n m) (hempty : n = 0 → m = 0)
    (hneg : FarBelow neg needlemanWunschConfig (n + m)) :
    (gotoh neg scores needlemanWunschConfig).1 = needlemanWunsch scores n m := by
  obtain ⟨rfl, rfl⟩ := hscores.size hempty
  rw [gotoh_total needlemanWunschConfig_negative hneg]
  exact best_eq_needlemanWunsch hscores.inRange scores.length (width scores) hneg

/-- One row of two scores. -/
theorem gotoh_eq_needlemanWunsch_row :
    (gotoh (-10 ^ 30) [[1, -1]] needlemanWunschConfig).1 = needlemanWunsch [[1, -1]] 1 2 :=
  gotoh_eq_needlemanWunsch (-10 ^ 30) [[1, -1]] 1 2 ⟨rfl, by simp, by norm_num⟩ (by decide)
    (by norm_num [FarBelow, needlemanWunschConfig])

end Tracewake.Alignment
