import Mathlib.Algebra.Order.Archimedean.Basic
import Mathlib.Algebra.Order.Field.Rat
import Mathlib.Order.Bounds.Basic
import Tracewake.Alignment.Traceback

/-!
# Which alignments the tables range over

The recurrences go from `M` to a gap and from a gap to itself or to `M`, never from one
gap to the other. So the total is the best score of the alignments in which no gap is
next to a gap of the other side. Whether that loses score depends on the costs: two
extensions that cost at least a mismatch can be exchanged for a match column, and cheaper
ones cannot on a large enough matrix.
-/

namespace Tracewake.Alignment

variable {neg : ℚ} {scores : Scores} {gaps : Gaps} {n m : ℕ}

/-- The alignments of the first `i` and `j` indices, column by column from the last. -/
inductive Path : ℕ → ℕ → List Column → Prop where
  | nil : Path 0 0 []
  | match {i j : ℕ} {columns : List Column} :
    Path i j columns → Path (i + 1) (j + 1) ((some i, some j) :: columns)
  | leaveRight {i j : ℕ} {columns : List Column} :
    Path i j columns → Path (i + 1) j ((some i, none) :: columns)
  | leaveLeft {i j : ℕ} {columns : List Column} :
    Path i j columns → Path i (j + 1) ((none, some j) :: columns)

/-- Indices in descending order start with the largest. -/
theorem reverse_range_eq_cons {n i : ℕ} {rest : List ℕ}
    (h : i :: rest = (List.range n).reverse) :
    n = i + 1 ∧ rest = (List.range i).reverse := by
  cases n with
  | zero => simp at h
  | succ n =>
    rw [range_succ_reverse, List.cons.injEq] at h
    obtain ⟨rfl, hrest⟩ := h
    exact ⟨rfl, hrest⟩

/-- Columns that cover both sides are a path through the table. -/
theorem Covers.path {i j : ℕ} {columns : List Column} (h : Covers i j columns) :
    Path i j columns := by
  induction columns generalizing i j with
  | nil =>
    have hi : i = 0 := by simpa using h.left
    have hj : j = 0 := by simpa using h.right
    subst hi hj
    exact .nil
  | cons column columns ih =>
    obtain ⟨hleft, hright, hpaired⟩ := h
    rw [List.mem_cons, not_or] at hpaired
    rcases column with ⟨_ | a, _ | b⟩
    · exact absurd rfl hpaired.1
    · obtain ⟨rfl, hrest⟩ := reverse_range_eq_cons hright
      exact (ih ⟨hleft, hrest, hpaired.2⟩).leaveLeft
    · obtain ⟨rfl, hrest⟩ := reverse_range_eq_cons hleft
      exact (ih ⟨hrest, hright, hpaired.2⟩).leaveRight
    · obtain ⟨rfl, hrest⟩ := reverse_range_eq_cons hleft
      obtain ⟨rfl, hrest'⟩ := reverse_range_eq_cons hright
      exact (ih ⟨hrest, hrest', hpaired.2⟩).match

/-! ## Upper bounds -/

/-- The value of a match is the best value before it with the score of the pair. -/
theorem m_succ (neg : ℚ) (scores : Scores) (gaps : Gaps) (i j : ℕ) :
    (row neg scores gaps (i + 1) (j + 1)).m =
      (row neg scores gaps i j).best + score scores i j := rfl

variable (scores) in
/-- Opening a gap of the first kind, or extending it, stays below the entry of `X`. -/
theorem gap_le_x (hgaps : gaps.Negative) {i j : ℕ} (hneg : FarBelow neg gaps (i + 1 + j)) :
    (row neg scores gaps i j).m + gaps.gapOpen ≤ (row neg scores gaps (i + 1) j).x ∧
      (row neg scores gaps i j).x + gaps.gapExtend ≤ (row neg scores gaps (i + 1) j).x := by
  rw [x_succ scores hgaps hneg]
  exact ⟨le_max_left _ _, le_max_right _ _⟩

variable (scores) in
/-- Opening a gap of the second kind, or extending it, stays below the entry of `Y`. -/
theorem gap_le_y (hgaps : gaps.Negative) {i j : ℕ} (hneg : FarBelow neg gaps (i + (j + 1))) :
    (row neg scores gaps i j).m + gaps.gapOpen ≤ (row neg scores gaps i (j + 1)).y ∧
      (row neg scores gaps i j).y + gaps.gapExtend ≤ (row neg scores gaps i (j + 1)).y := by
  rw [y_succ scores hgaps hneg]
  exact ⟨le_max_left _ _, le_max_right _ _⟩

/-- A last step of the left side alone costs what opening or extending its gap costs. -/
theorem backwardScore_leaveRight (scores : Scores) (gaps : Gaps) (i : ℕ) (columns : List Column) :
    backwardScore scores gaps ((some i, none) :: columns) =
      (if tableOf columns.head? = .X then gaps.gapExtend else gaps.gapOpen) +
        backwardScore scores gaps columns := by
  rw [backwardScore, columnScore, gapCost_left]

/-- A last step of the right side alone costs what opening or extending its gap costs. -/
theorem backwardScore_leaveLeft (scores : Scores) (gaps : Gaps) (j : ℕ) (columns : List Column) :
    backwardScore scores gaps ((none, some j) :: columns) =
      (if tableOf columns.head? = .Y then gaps.gapExtend else gaps.gapOpen) +
        backwardScore scores gaps columns := by
  rw [backwardScore, columnScore, gapCost_right]

/-- No gap of the second kind is next to one of the first. -/
theorem last_ne_right {columns : List Column} {i : ℕ}
    (h : ∀ before ∈ columns.head?,
      ¬ (Column.isLeft (some i, none) = true ∧ before.isRight = true) ∧
        ¬ (Column.isRight (some i, none) = true ∧ before.isLeft = true)) :
    tableOf columns.head? ≠ .Y := by
  cases columns with
  | nil => decide
  | cons before columns =>
    have hpair := (h before rfl).1
    obtain ⟨_ | _, _ | _⟩ := before <;> simp_all [tableOf, Column.isLeft, Column.isRight]

/-- In a plain alignment a step of the right side alone does not follow one of the left
side. -/
theorem last_ne_left {columns : List Column} {j : ℕ}
    (h : ∀ before ∈ columns.head?,
      ¬ (Column.isLeft (none, some j) = true ∧ before.isRight = true) ∧
        ¬ (Column.isRight (none, some j) = true ∧ before.isLeft = true)) :
    tableOf columns.head? ≠ .X := by
  cases columns with
  | nil => decide
  | cons before columns =>
    have hpair := (h before rfl).2
    obtain ⟨_ | _, _ | _⟩ := before <;> simp_all [tableOf, Column.isLeft, Column.isRight]

/-- Columns without adjacent gaps of both sides score at most the entry they end in. -/
theorem plain_le_value (hgaps : gaps.Negative) {i j : ℕ} {columns : List Column}
    (h : Path i j columns) (hplain : Plain columns) (hneg : FarBelow neg gaps (i + j)) :
    backwardScore scores gaps columns ≤
      (row neg scores gaps i j).value (tableOf columns.head?) := by
  induction h with
  | nil => exact le_refl (0 : ℚ)
  | @«match» i j columns _ ih =>
    have hbefore := ih (List.isChain_cons.mp hplain).2 (hneg.mono hgaps (by omega))
    have hbest := (row neg scores gaps i j).value_le_best (tableOf columns.head?)
    simp only [backwardScore, columnScore, List.head?_cons, tableOf, Cell.value, m_succ]
    linarith
  | @leaveRight i j columns _ ih =>
    obtain ⟨hhead, htail⟩ := List.isChain_cons.mp hplain
    have hbefore := ih htail (hneg.mono hgaps (by omega))
    obtain ⟨hopens, hextends⟩ := gap_le_x scores hgaps hneg
    rw [backwardScore_leaveRight, List.head?_cons]
    change _ ≤ (row neg scores gaps (i + 1) j).x
    cases hlast : tableOf columns.head? with
    | M =>
      simp only [hlast, Cell.value, reduceCtorEq, if_false] at hbefore ⊢
      linarith
    | X =>
      simp only [hlast, Cell.value, if_true] at hbefore ⊢
      linarith
    | Y => exact absurd hlast (last_ne_right hhead)
  | @leaveLeft i j columns _ ih =>
    obtain ⟨hhead, htail⟩ := List.isChain_cons.mp hplain
    have hbefore := ih htail (hneg.mono hgaps (by omega))
    obtain ⟨hopens, hextends⟩ := gap_le_y scores hgaps hneg
    rw [backwardScore_leaveLeft, List.head?_cons]
    change _ ≤ (row neg scores gaps i (j + 1)).y
    cases hlast : tableOf columns.head? with
    | M =>
      simp only [hlast, Cell.value, reduceCtorEq, if_false] at hbefore ⊢
      linarith
    | Y =>
      simp only [hlast, Cell.value, if_true] at hbefore ⊢
      linarith
    | X => exact absurd hlast (last_ne_left hhead)

variable (scores) in
/-- A gap costs at least an extension, from the best of its position. -/
theorem y_succ_le (hgaps : gaps.Negative) (hle : gaps.gapOpen ≤ gaps.gapExtend) {i j : ℕ}
    (hneg : FarBelow neg gaps (i + (j + 1))) :
    (row neg scores gaps i (j + 1)).y ≤ (row neg scores gaps i j).best + gaps.gapExtend := by
  have hm := (row neg scores gaps i j).value_le_best .M
  have hy := (row neg scores gaps i j).value_le_best .Y
  simp only [Cell.value] at hm hy
  rw [y_succ scores hgaps hneg]
  exact max_le (by linarith) (by linarith)

variable (scores) in
/-- A gap of the left side is worth no more than the best value before it and an
extension. -/
theorem x_succ_le (hgaps : gaps.Negative) (hle : gaps.gapOpen ≤ gaps.gapExtend) {i j : ℕ}
    (hneg : FarBelow neg gaps (i + 1 + j)) :
    (row neg scores gaps (i + 1) j).x ≤ (row neg scores gaps i j).best + gaps.gapExtend := by
  have hm := (row neg scores gaps i j).value_le_best .M
  have hx := (row neg scores gaps i j).value_le_best .X
  simp only [Cell.value] at hm hx
  rw [x_succ scores hgaps hneg]
  exact max_le (by linarith) (by linarith)

/-- The most that any columns can score which end in a table. After a gap this can be
more than the entry: a gap of the other side may be next to it. -/
def bound (gaps : Gaps) (cell : Cell) : Table → ℚ
  | .M => cell.m
  | .X => max cell.x (cell.m + (gaps.gapOpen - gaps.gapExtend))
  | .Y => max cell.y (cell.m + (gaps.gapOpen - gaps.gapExtend))

/-- The value in each table is at most the best one. -/
theorem bound_le_best (hle : gaps.gapOpen ≤ gaps.gapExtend) (cell : Cell) (table : Table) :
    bound gaps cell table ≤ cell.best := by
  have hm := cell.value_le_best .M
  have hx := cell.value_le_best .X
  have hy := cell.value_le_best .Y
  simp only [Cell.value] at hm hx hy
  cases table with
  | M => exact hm
  | X => exact max_le hx (by linarith)
  | Y => exact max_le hy (by linarith)

/-- Columns that end with a gap of the second kind cover an index of the second side. -/
theorem Path.exists_right {i j : ℕ} {columns : List Column} (h : Path i j columns)
    (hlast : tableOf columns.head? = .Y) : ∃ k, j = k + 1 := by
  cases h with
  | nil => exact absurd hlast (by decide)
  | «match» h => exact absurd hlast (by simp [tableOf])
  | leaveRight h => exact absurd hlast (by simp [tableOf])
  | leaveLeft h => exact ⟨_, rfl⟩

/-- A path that ends in a gap of the left side has a step of that side. -/
theorem Path.exists_left {i j : ℕ} {columns : List Column} (h : Path i j columns)
    (hlast : tableOf columns.head? = .X) : ∃ k, i = k + 1 := by
  cases h with
  | nil => exact absurd hlast (by decide)
  | «match» h => exact absurd hlast (by simp [tableOf])
  | leaveRight h => exact ⟨_, rfl⟩
  | leaveLeft h => exact absurd hlast (by simp [tableOf])

/-- Where two extensions cost a mismatch, columns of every kind stay below the bound: a
gap next to a gap of the other side is exchanged for a match column. -/
theorem path_le_bound (hgaps : gaps.Negative) (hle : gaps.gapOpen ≤ gaps.gapExtend)
    (hhalf : gaps.gapExtend ≤ -1 / 2) (hrange : InRange scores) {i j : ℕ} {columns : List Column}
    (h : Path i j columns) (hneg : FarBelow neg gaps (i + j)) :
    backwardScore scores gaps columns ≤
      bound gaps (row neg scores gaps i j) (tableOf columns.head?) := by
  induction h with
  | nil => exact le_refl (0 : ℚ)
  | @«match» i j columns _ ih =>
    have hbefore := ih (hneg.mono hgaps (by omega))
    have hbest := bound_le_best hle (row neg scores gaps i j) (tableOf columns.head?)
    simp only [backwardScore, columnScore, List.head?_cons, tableOf, bound, m_succ]
    linarith
  | @leaveRight i j columns hpath ih =>
    have hbefore := ih (hneg.mono hgaps (by omega))
    obtain ⟨hopens, hextends⟩ := gap_le_x scores hgaps hneg
    rw [backwardScore_leaveRight, List.head?_cons]
    change _ ≤ max (row neg scores gaps (i + 1) j).x
      ((row neg scores gaps (i + 1) j).m + (gaps.gapOpen - gaps.gapExtend))
    rw [le_max_iff]
    cases hlast : tableOf columns.head? with
    | M =>
      simp only [hlast, bound, reduceCtorEq, if_false] at hbefore ⊢
      left
      linarith
    | X =>
      simp only [hlast, bound, if_true] at hbefore ⊢
      left
      rcases le_max_iff.mp hbefore with hx | hm <;> linarith
    | Y =>
      obtain ⟨j, rfl⟩ := hpath.exists_right hlast
      have hy := y_succ_le scores hgaps hle (hneg.mono hgaps (by omega : i + (j + 1) ≤ _))
      have hs := (hrange i j).1
      have hm := m_succ neg scores gaps i j
      simp only [hlast, bound, reduceCtorEq, if_false] at hbefore ⊢
      rcases le_max_iff.mp hbefore with hbefore | hbefore
      · right
        linarith
      · left
        linarith
  | @leaveLeft i j columns hpath ih =>
    have hbefore := ih (hneg.mono hgaps (by omega))
    obtain ⟨hopens, hextends⟩ := gap_le_y scores hgaps hneg
    rw [backwardScore_leaveLeft, List.head?_cons]
    change _ ≤ max (row neg scores gaps i (j + 1)).y
      ((row neg scores gaps i (j + 1)).m + (gaps.gapOpen - gaps.gapExtend))
    rw [le_max_iff]
    cases hlast : tableOf columns.head? with
    | M =>
      simp only [hlast, bound, reduceCtorEq, if_false] at hbefore ⊢
      left
      linarith
    | Y =>
      simp only [hlast, bound, if_true] at hbefore ⊢
      left
      rcases le_max_iff.mp hbefore with hy | hm <;> linarith
    | X =>
      obtain ⟨i, rfl⟩ := hpath.exists_left hlast
      have hx := x_succ_le scores hgaps hle (hneg.mono hgaps (by omega : i + 1 + j ≤ _))
      have hs := (hrange i j).1
      have hm := m_succ neg scores gaps i j
      simp only [hlast, bound, reduceCtorEq, if_false] at hbefore ⊢
      rcases le_max_iff.mp hbefore with hbefore | hbefore
      · right
        linarith
      · left
        linarith

/-! ## Cheap extensions -/

/-- The matrix of `k` and `k` steps that all mismatch. -/
def uniform (k : ℕ) : Scores :=
  List.replicate k (List.replicate k (-1))

/-- In the example every pair scores -1. -/
theorem score_uniform {k i j : ℕ} (hi : i < k) (hj : j < k) : score (uniform k) i j = -1 := by
  simp [score, uniform, List.getD_eq_getElem?_getD, hi, hj]

/-- The example's matrix is a square. -/
theorem uniform_rectangular (k : ℕ) : Rectangular (uniform k) k k where
  rows := List.length_replicate
  columns := by
    intro line hline
    rw [List.eq_of_mem_replicate hline]
    exact List.length_replicate
  range := by
    intro line hline s hs
    rw [List.eq_of_mem_replicate hline] at hs
    rw [List.eq_of_mem_replicate hs]
    norm_num

/-- How many columns match and how many gaps open, in columns that end in a table and
have no adjacent gaps of both sides. A path off the diagonal has a gap, and one that is
back on the diagonal has a gap of each side. -/
def Counts (i j : ℕ) (table : Table) (matched opened : ℕ) : Prop :=
  match table with
  | .M => (i = matched ∧ j = matched ∨ i ≠ j ∧ 1 ≤ opened ∨ 2 ≤ opened) ∧
    (1 ≤ matched ∨ i = 0 ∧ j = 0)
  | .X => (j < i ∧ 1 ≤ opened ∨ 2 ≤ opened) ∧ (1 ≤ matched ∨ j = 0)
  | .Y => (i < j ∧ 1 ≤ opened ∨ 2 ≤ opened) ∧ (1 ≤ matched ∨ i = 0)

/-- A match counts as one. -/
theorem Counts.match {i j matched opened : ℕ} {table : Table} (h : Counts i j table matched opened) :
    Counts (i + 1) (j + 1) .M (matched + 1) opened := by
  cases table <;> simp only [Counts] at h ⊢ <;> omega

/-- A step of the left side alone opens a gap. -/
theorem Counts.openLeft {i j matched opened : ℕ} (h : Counts i j .M matched opened) :
    Counts (i + 1) j .X matched (opened + 1) := by
  simp only [Counts] at h ⊢
  omega

/-- A step of the left side alone goes on with a gap. -/
theorem Counts.extendLeft {i j matched opened : ℕ} (h : Counts i j .X matched opened) :
    Counts (i + 1) j .X matched opened := by
  simp only [Counts] at h ⊢
  omega

/-- A step of the right side alone opens a gap. -/
theorem Counts.openRight {i j matched opened : ℕ} (h : Counts i j .M matched opened) :
    Counts i (j + 1) .Y matched (opened + 1) := by
  simp only [Counts] at h ⊢
  omega

/-- A step of the right side alone goes on with a gap. -/
theorem Counts.extendRight {i j matched opened : ℕ} (h : Counts i j .Y matched opened) :
    Counts i (j + 1) .Y matched opened := by
  simp only [Counts] at h ⊢
  omega

/-- At the corner of a square either every column matches or both sides have a gap. -/
theorem Counts.corner {k matched opened : ℕ} {table : Table} (hk : 0 < k)
    (h : Counts k k table matched opened) : 1 ≤ matched ∧ (matched = k ∨ 2 ≤ opened) := by
  cases table <;> simp only [Counts] at h <;> omega

/-- The score of such columns where everything mismatches, from their counts. -/
theorem plain_counts (gaps : Gaps) {k i j : ℕ} {columns : List Column} (h : Path i j columns)
    (hplain : Plain columns) (hi : i ≤ k) (hj : j ≤ k) : ∃ matched opened : ℕ,
      backwardScore (uniform k) gaps columns = (i + j) * gaps.gapExtend -
        matched * (1 + 2 * gaps.gapExtend) + opened * (gaps.gapOpen - gaps.gapExtend) ∧
      Counts i j (tableOf columns.head?) matched opened := by
  induction h with
  | nil => exact ⟨0, 0, by simp [backwardScore], by simp [tableOf, Counts]⟩
  | @«match» i j columns _ ih =>
    obtain ⟨matched, opened, hscore, hcounts⟩ :=
      ih (List.isChain_cons.mp hplain).2 (by omega) (by omega)
    refine ⟨matched + 1, opened, ?_, hcounts.match⟩
    rw [backwardScore, columnScore, hscore, score_uniform (by omega) (by omega)]
    push_cast
    ring
  | @leaveRight i j columns _ ih =>
    obtain ⟨hhead, htail⟩ := List.isChain_cons.mp hplain
    obtain ⟨matched, opened, hscore, hcounts⟩ := ih htail (by omega) (by omega)
    rw [backwardScore_leaveRight, hscore]
    cases hlast : tableOf columns.head? with
    | M =>
      rw [hlast] at hcounts
      refine ⟨matched, opened + 1, ?_, hcounts.openLeft⟩
      rw [if_neg (by decide)]
      push_cast
      ring
    | X =>
      rw [hlast] at hcounts
      refine ⟨matched, opened, ?_, hcounts.extendLeft⟩
      rw [if_pos rfl]
      push_cast
      ring
    | Y => exact absurd hlast (last_ne_right hhead)
  | @leaveLeft i j columns _ ih =>
    obtain ⟨hhead, htail⟩ := List.isChain_cons.mp hplain
    obtain ⟨matched, opened, hscore, hcounts⟩ := ih htail (by omega) (by omega)
    rw [backwardScore_leaveLeft, hscore]
    cases hlast : tableOf columns.head? with
    | M =>
      rw [hlast] at hcounts
      refine ⟨matched, opened + 1, ?_, hcounts.openRight⟩
      rw [if_neg (by decide)]
      push_cast
      ring
    | Y =>
      rw [hlast] at hcounts
      refine ⟨matched, opened, ?_, hcounts.extendRight⟩
      rw [if_pos rfl]
      push_cast
      ring
    | X => exact absurd hlast (last_ne_left hhead)

/-- All gaps of one side and then all of the other. -/
theorem rights_lefts_score (scores : Scores) (gaps : Gaps) (k : ℕ) :
    backwardScore scores gaps (rights (k + 1) ++ lefts (k + 1)) = gaps.run k + gaps.run k := by
  rw [rights_score scores gaps (by simp [lefts, tableOf]), lefts_score]

/-- With extensions cheaper than half a mismatch, leaving everything out of a large square
of mismatches beats all columns without adjacent gaps of both sides. -/
theorem beaten_of_large (hle : gaps.gapOpen ≤ gaps.gapExtend) (hhalf : -1 / 2 < gaps.gapExtend)
    {k : ℕ} (hk : 2 * (gaps.gapExtend - gaps.gapOpen) < (k + 1) * (1 + 2 * gaps.gapExtend))
    {columns : List Column} (hpath : Path (k + 1) (k + 1) columns) (hplain : Plain columns) :
    backwardScore (uniform (k + 1)) gaps columns < gaps.run k + gaps.run k := by
  have hpositive : 0 < 1 + 2 * gaps.gapExtend := by linarith
  obtain ⟨matched, opened, hscore, hcounts⟩ := plain_counts gaps hpath hplain le_rfl le_rfl
  obtain ⟨hmatched, hcases⟩ := hcounts.corner (by omega)
  rw [hscore]
  simp only [Gaps.run]
  push_cast
  rcases hcases with rfl | hopened
  · have hcost : (opened : ℚ) * (gaps.gapOpen - gaps.gapExtend) ≤ 0 :=
      mul_nonpos_of_nonneg_of_nonpos (Nat.cast_nonneg _) (by linarith)
    push_cast
    linarith
  · have hmatched' : (1 : ℚ) ≤ matched := by exact_mod_cast hmatched
    have hopened' : (2 : ℚ) ≤ opened := by exact_mod_cast hopened
    have hmatches : 1 * (1 + 2 * gaps.gapExtend) ≤ matched * (1 + 2 * gaps.gapExtend) :=
      mul_le_mul_of_nonneg_right hmatched' hpositive.le
    have hcost : (opened : ℚ) * (gaps.gapOpen - gaps.gapExtend) ≤
        2 * (gaps.gapOpen - gaps.gapExtend) :=
      mul_le_mul_of_nonpos_right hopened' (by linarith)
    linarith

/-! ## The total -/

/-- The scores of the alignments of `n` and `m` indices. -/
def alignmentScores (scores : Scores) (gaps : Gaps) (n m : ℕ) : Set ℚ :=
  {total | ∃ columns, IsAlignment n m columns ∧ affineScore scores gaps columns = total}

/-- The total is the best entry of the corner, also where one side is empty. -/
theorem gotoh_total (hgaps : gaps.Negative)
    (hneg : FarBelow neg gaps (scores.length + width scores)) :
    (gotoh neg scores gaps).1 = (row neg scores gaps scores.length (width scores)).best := by
  simp only [gotoh]
  split
  · next h =>
    obtain ⟨hn, hm⟩ := h
    have hbelow : neg < 0 := by simpa [FarBelow, hn, hm] using hneg
    rw [hn, hm, row_zero_zero]
    simp [Cell.best, hbelow.le]
  · next hboth =>
    split
    · next hn =>
      obtain ⟨j, hj⟩ : ∃ j, width scores = j + 1 :=
        Nat.exists_eq_succ_of_ne_zero fun hm => hboth ⟨hn, hm⟩
      have hbelow : neg < lowest gaps (j + 1) := by simpa [FarBelow, lowest, hn, hj] using hneg
      have hrun := lowest_le_run hgaps j
      rw [hn, hj, row_zero_succ]
      simp only [Cell.best, Nat.add_sub_cancel]
      rw [max_self, max_eq_right (by linarith)]
    · next hn =>
      split
      · next hm =>
        obtain ⟨i, hi⟩ := Nat.exists_eq_succ_of_ne_zero hn
        have hbelow : neg < lowest gaps (i + 1) := by
          simpa [FarBelow, lowest, hi, hm] using hneg
        have hrun := lowest_le_run hgaps i
        rw [hi, hm, row_succ_zero]
        simp only [Cell.best, Nat.succ_eq_add_one, Nat.add_sub_cancel]
        rw [max_eq_left (le_max_left _ _), max_eq_right (by linarith)]
      · rfl

/-- The total is the best score of the alignments without adjacent gaps of both sides. -/
theorem gotoh_greatest_plain (hgaps : gaps.Negative) (hrange : InRange scores)
    (hneg : FarBelow neg gaps (scores.length + width scores)) :
    IsGreatest {total | ∃ columns, Path scores.length (width scores) columns ∧ Plain columns ∧
      backwardScore scores gaps columns = total} (gotoh neg scores gaps).1 := by
  rw [gotoh_total hgaps hneg]
  constructor
  · have hvalue := value_terminal (row neg scores gaps scores.length (width scores))
    have hreachable := reachable_of_best hgaps hrange hneg hvalue
    have hexplains := traceback_explains hgaps hrange _ _ _ _ rfl hneg hreachable
    exact ⟨_, hexplains.covers.path, hexplains.plain, hexplains.score.trans hvalue⟩
  · rintro total ⟨columns, hpath, hplain, rfl⟩
    exact (plain_le_value hgaps hpath hplain hneg).trans (Cell.value_le_best _ _)

/-- A path through the table covers both sides. -/
theorem Path.covers {i j : ℕ} {columns : List Column} (h : Path i j columns) :
    Covers i j columns := by
  induction h with
  | nil => exact .nil
  | «match» _ ih => exact ih.match
  | leaveRight _ ih => exact ih.leaveRight
  | leaveLeft _ ih => exact ih.leaveLeft

/-- Columns without adjacent gaps of both sides have none backwards either. -/
theorem Plain.reverse {columns : List Column} (h : Plain columns) : Plain columns.reverse := by
  rw [Plain, List.isChain_reverse]
  refine h.imp fun a b hab => ?_
  exact ⟨fun hba => hab.2 ⟨hba.2, hba.1⟩, fun hba => hab.1 ⟨hba.2, hba.1⟩⟩

/-- The same columns listed from the last. -/
theorem mem_alignmentScores {total : ℚ} : total ∈ alignmentScores scores gaps n m ↔
    ∃ columns, Path n m columns ∧ backwardScore scores gaps columns = total := by
  constructor
  · rintro ⟨columns, halignment, hscore⟩
    exact ⟨columns.reverse, halignment.covers.path, hscore⟩
  · rintro ⟨columns, hpath, hscore⟩
    refine ⟨columns.reverse, hpath.covers.isAlignment, ?_⟩
    rw [affineScore, List.reverse_reverse, hscore]

/-- The total is the maximum over all alignments exactly where an alignment without
adjacent gaps of both sides attains it. -/
theorem greatest_iff_plain (hgaps : gaps.Negative) (hrange : InRange scores)
    (hneg : FarBelow neg gaps (scores.length + width scores)) :
    IsGreatest (alignmentScores scores gaps scores.length (width scores))
        (gotoh neg scores gaps).1 ↔
      ∃ columns, IsAlignment scores.length (width scores) columns ∧ Plain columns ∧
        affineScore scores gaps columns ∈
          upperBounds (alignmentScores scores gaps scores.length (width scores)) := by
  obtain ⟨⟨columns, hpath, hplain, hscore⟩, hupper⟩ := gotoh_greatest_plain hgaps hrange hneg
  constructor
  · intro hgreatest
    refine ⟨columns.reverse, hpath.covers.isAlignment, hplain.reverse, ?_⟩
    rw [affineScore, List.reverse_reverse, hscore]
    exact hgreatest.2
  · rintro ⟨best, halignment, hbest, hbound⟩
    have hmem := mem_alignmentScores.mpr ⟨columns, hpath, hscore⟩
    have hle := hupper ⟨best.reverse, halignment.covers.path, hbest.reverse, rfl⟩
    have heq : (gotoh neg scores gaps).1 = affineScore scores gaps best :=
      le_antisymm (hbound hmem) hle
    rw [heq]
    exact ⟨⟨best, halignment, rfl⟩, hbound⟩

/-- With dear extensions the total is the maximum over all alignments. -/
theorem greatest_of_half (hgaps : gaps.Negative) (hle : gaps.gapOpen ≤ gaps.gapExtend)
    (hhalf : gaps.gapExtend ≤ -1 / 2) (hrange : InRange scores)
    (hneg : FarBelow neg gaps (scores.length + width scores)) :
    IsGreatest (alignmentScores scores gaps scores.length (width scores))
      (gotoh neg scores gaps).1 := by
  obtain ⟨⟨columns, hpath, -, hscore⟩, -⟩ := gotoh_greatest_plain hgaps hrange hneg
  refine ⟨mem_alignmentScores.mpr ⟨columns, hpath, hscore⟩, fun total htotal => ?_⟩
  obtain ⟨other, hother, rfl⟩ := mem_alignmentScores.mp htotal
  rw [gotoh_total hgaps hneg]
  exact (path_le_bound hgaps hle hhalf hrange hother hneg).trans (bound_le_best hle _ _)

/-- The size of a matrix with at least one row, or with no columns either. -/
theorem Rectangular.size (h : Rectangular scores n m) (hempty : n = 0 → m = 0) :
    scores.length = n ∧ width scores = m := by
  refine ⟨h.rows, ?_⟩
  rcases Nat.eq_zero_or_pos n with rfl | hn
  · rw [hempty rfl, List.length_eq_zero_iff.mp h.rows]
    rfl
  · exact h.width_eq hn

/-- On such a square the total is not the maximum. -/
theorem not_greatest_of_large (hgaps : gaps.Negative) (hle : gaps.gapOpen ≤ gaps.gapExtend)
    (hhalf : -1 / 2 < gaps.gapExtend) {k : ℕ}
    (hk : 2 * (gaps.gapExtend - gaps.gapOpen) < (k + 1) * (1 + 2 * gaps.gapExtend))
    (hneg : FarBelow neg gaps (k + 1 + (k + 1))) :
    ¬ IsGreatest (alignmentScores (uniform (k + 1)) gaps (k + 1) (k + 1))
      (gotoh neg (uniform (k + 1)) gaps).1 := by
  intro hgreatest
  have hscores := uniform_rectangular (k + 1)
  obtain ⟨hlength, hwidth⟩ := hscores.size (by omega)
  have hplain := gotoh_greatest_plain hgaps hscores.inRange (by rw [hlength, hwidth]; exact hneg)
  rw [hlength, hwidth] at hplain
  obtain ⟨⟨columns, hpath, hcolumns, hscore⟩, -⟩ := hplain
  have hless := beaten_of_large hle hhalf hk hpath hcolumns
  have hmem : gaps.run k + gaps.run k ∈ alignmentScores (uniform (k + 1)) gaps (k + 1) (k + 1) :=
    mem_alignmentScores.mpr ⟨rights (k + 1) ++ lefts (k + 1),
      (Covers.rights_append (lefts_covers (k + 1)) (k + 1)).path,
      rights_lefts_score (uniform (k + 1)) gaps k⟩
  have hbound := hgreatest.2 hmem
  rw [← hscore] at hbound
  exact absurd hless (not_lt.mpr hbound)

/-- The costs and the sentinel of the source on three mismatching steps: the total is `-3`,
and leaving out all six steps costs `2.8`. -/
theorem gotoh_not_optimal :
    ¬ IsGreatest (alignmentScores (uniform 3) ⟨-1, -1 / 5⟩ 3 3)
      (gotoh (-10 ^ 30) (uniform 3) ⟨-1, -1 / 5⟩).1 :=
  not_greatest_of_large ⟨by norm_num, by norm_num⟩ (by norm_num) (by norm_num) (by norm_num)
    (by norm_num [FarBelow])

/-- When `gotoh` is optimal. On a matrix its total is the maximum over all alignments if and
only if some best alignment has no gap next to a gap of the other side. For gap costs that
is so on every matrix if and only if an extension costs at least half a mismatch. -/
theorem gotoh_optimal_iff (gaps : Gaps) (hle : gaps.gapOpen ≤ gaps.gapExtend)
    (hextend : gaps.gapExtend < 0) :
    (∀ neg scores n m, Rectangular scores n m → (n = 0 → m = 0) → FarBelow neg gaps (n + m) →
      (IsGreatest (alignmentScores scores gaps n m) (gotoh neg scores gaps).1 ↔
        ∃ columns, IsAlignment n m columns ∧ Plain columns ∧
          affineScore scores gaps columns ∈ upperBounds (alignmentScores scores gaps n m))) ∧
    ((∀ neg scores n m, Rectangular scores n m → (n = 0 → m = 0) → FarBelow neg gaps (n + m) →
      IsGreatest (alignmentScores scores gaps n m) (gotoh neg scores gaps).1) ↔
        gaps.gapExtend ≤ -1 / 2) := by
  have hgaps : gaps.Negative := ⟨by linarith, hextend⟩
  refine ⟨fun neg scores n m hscores hempty hneg => ?_, fun hall => ?_,
    fun hhalf neg scores n m hscores hempty hneg => ?_⟩
  · obtain ⟨rfl, rfl⟩ := hscores.size hempty
    exact greatest_iff_plain hgaps hscores.inRange hneg
  · by_contra hcheap
    have hhalf : -1 / 2 < gaps.gapExtend := not_le.mp hcheap
    obtain ⟨k, hk⟩ :=
      exists_nat_gt (2 * (gaps.gapExtend - gaps.gapOpen) / (1 + 2 * gaps.gapExtend))
    rw [div_lt_iff₀ (by linarith)] at hk
    have hneg : FarBelow (lowest gaps (k + 1 + (k + 1)) - 1) gaps (k + 1 + (k + 1)) :=
      sub_one_lt (lowest gaps (k + 1 + (k + 1)))
    exact not_greatest_of_large hgaps hle hhalf (by linarith) hneg
      (hall _ _ _ _ (uniform_rectangular (k + 1)) (by omega) hneg)
  · obtain ⟨rfl, rfl⟩ := hscores.size hempty
    exact greatest_of_half hgaps hle hhalf hscores.inRange hneg

/-- Where an extension costs half a mismatch. -/
theorem gotoh_optimal_iff_half :
    IsGreatest (alignmentScores [[-1]] ⟨-1, -1 / 2⟩ 1 1)
      (gotoh (-10 ^ 30) [[-1]] ⟨-1, -1 / 2⟩).1 :=
  (gotoh_optimal_iff ⟨-1, -1 / 2⟩ (by norm_num) (by norm_num)).2.mpr (by norm_num)
    (-10 ^ 30) [[-1]] 1 1 ⟨rfl, by simp, by norm_num⟩ (by decide) (by norm_num [FarBelow])

end Tracewake.Alignment
