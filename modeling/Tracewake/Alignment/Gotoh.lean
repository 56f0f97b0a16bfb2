import Mathlib.Algebra.Order.Ring.Rat
import Mathlib.Tactic.Linarith
import Mathlib.Tactic.Ring
import Mathlib.Tactic.NormNum

/-!
# Global alignment with affine gap costs

The three tables of `gotoh`, over rational numbers. Every entry of a table is assigned
once before it is read, so the tables are functions of the position: `row i j` holds the
entries of `M`, `X` and `Y` at `(i, j)`. The sentinel `-1e30` is the parameter `neg`.
-/

namespace Tracewake.Alignment

/-- A score matrix: `scores[i][j]` is the score of `A[i]` against `B[j]`. -/
abbrev Scores := List (List ℚ)

/-- `scores[i][j]`. -/
def score (scores : Scores) (i j : ℕ) : ℚ :=
  (scores.getD i []).getD j 0

/-- `gap_open` and `gap_extend`. -/
structure Gaps where
  gapOpen : ℚ
  gapExtend : ℚ

/-- The table that a traceback is in. -/
inductive Table where
  | M | X | Y
  deriving DecidableEq

/-- The entries of the three tables at one position. -/
structure Cell where
  m : ℚ
  x : ℚ
  y : ℚ

/-- The entry in one table. -/
def Cell.value (cell : Cell) : Table → ℚ
  | .M => cell.m
  | .X => cell.x
  | .Y => cell.y

/-- The best of the three entries. -/
def Cell.best (cell : Cell) : ℚ :=
  max (max cell.m cell.x) cell.y

/-- The cost of a gap of `length + 1` columns. -/
def Gaps.run (gaps : Gaps) (length : ℕ) : ℚ :=
  gaps.gapOpen + length * gaps.gapExtend

/-- The body of the inner loop. -/
def nextCell (gaps : Gaps) (s : ℚ) (diagonal above left : Cell) : Cell where
  m := diagonal.best + s
  x := max (above.m + gaps.gapOpen) (above.x + gaps.gapExtend)
  y := max (left.m + gaps.gapOpen) (left.y + gaps.gapExtend)

/-- The tables at `i = 0`. -/
def firstRow (neg : ℚ) (gaps : Gaps) : ℕ → Cell
  | 0 => ⟨0, neg, neg⟩
  | j + 1 => ⟨neg, neg, gaps.run j⟩

/-- The tables at `i + 1` from those at `i`. -/
def nextRow (neg : ℚ) (scores : Scores) (gaps : Gaps) (i : ℕ) (above : ℕ → Cell) : ℕ → Cell
  | 0 => ⟨neg, gaps.run i, neg⟩
  | j + 1 =>
    nextCell gaps (score scores i j) (above j) (above (j + 1))
      (nextRow neg scores gaps i above j)

/-- The tables at `i`. -/
def row (neg : ℚ) (scores : Scores) (gaps : Gaps) : ℕ → ℕ → Cell
  | 0 => firstRow neg gaps
  | i + 1 => nextRow neg scores gaps i (row neg scores gaps i)

/-- A column of an alignment: the indices that it pairs, `none` for a gap. -/
abbrev Column := Option ℕ × Option ℕ

/-- The table of the cell before a match column. Equal entries are told apart by the
name of the table. -/
def previousTable (cell : Cell) : Table :=
  if max cell.m cell.x ≤ cell.y then .Y else if cell.m ≤ cell.x then .X else .M

/-- The loop of the traceback: the columns in the order in which they are appended. -/
def traceback (neg : ℚ) (scores : Scores) (gaps : Gaps) (i j : ℕ) (state : Table) : List Column :=
  let cell := row neg scores gaps
  if 0 < i ∧ 0 < j ∧ state = .M then
    (some (i - 1), some (j - 1)) ::
      traceback neg scores gaps (i - 1) (j - 1) (previousTable (cell (i - 1) (j - 1)))
  else if 0 < i ∧ state = .X then
    let before := cell (i - 1) j
    let next :=
      if before.m + gaps.gapOpen ≤ before.x + gaps.gapExtend ∧ 1 < i then Table.X else .M
    let next := if i - 1 = 0 ∧ 0 < j then .Y else next
    (some (i - 1), none) :: traceback neg scores gaps (i - 1) j next
  else if 0 < j then
    let before := cell i (j - 1)
    let next :=
      if 1 < j ∧ before.m + gaps.gapOpen ≤ before.y + gaps.gapExtend then Table.Y else .M
    let next := if j - 1 = 0 ∧ 0 < i then .X else next
    (none, some (j - 1)) :: traceback neg scores gaps i (j - 1) next
  else []
termination_by i + j

/-- The width of a matrix: that of its first row. -/
def width (scores : Scores) : ℕ :=
  (scores.head?.map List.length).getD 0

/-- `gotoh`: the total and the columns of the alignment. -/
def gotoh (neg : ℚ) (scores : Scores) (gaps : Gaps) : ℚ × List Column :=
  let n := scores.length
  let m := width scores
  if n = 0 ∧ m = 0 then (0, [])
  else if n = 0 then (gaps.run (m - 1), (List.range m).map fun j => (none, some j))
  else if m = 0 then (gaps.run (n - 1), (List.range n).map fun i => (some i, none))
  else
    let corner := row neg scores gaps n m
    let best := corner.best
    let state := if corner.m = best then Table.M else if corner.x = best then .X else .Y
    (best, (traceback neg scores gaps n m state).reverse)

/-- `align` on `n` and `m` steps with the matrix of their scores. -/
def align (neg : ℚ) (scores : Scores) (gaps : Gaps) (n m : ℕ) : ℚ × List Column :=
  if n = 0 ∧ m = 0 then (0, [])
  else if n = 0 then (gaps.run (m - 1), (List.range m).map fun j => (none, some j))
  else if m = 0 then (gaps.run (n - 1), (List.range n).map fun i => (some i, none))
  else gotoh neg scores gaps

/-! ## What is aligned -/

/-- The scores of `n` rows and `m` columns, each between `-1` and `1`. -/
structure Rectangular (scores : Scores) (n m : ℕ) : Prop where
  rows : scores.length = n
  columns : ∀ line ∈ scores, line.length = m
  range : ∀ line ∈ scores, ∀ s ∈ line, -1 ≤ s ∧ s ≤ 1

/-- Scores in their range, also outside the matrix. -/
def InRange (scores : Scores) : Prop :=
  ∀ i j, -1 ≤ score scores i j ∧ score scores i j ≤ 1

/-- In a rectangular matrix no entry is out of range. -/
theorem Rectangular.inRange {scores : Scores} {n m : ℕ} (h : Rectangular scores n m) :
    InRange scores := by
  intro i j
  simp only [score, List.getD_eq_getElem?_getD]
  cases hentries : scores[i]? with
  | none => simp
  | some entries =>
    cases hs : entries[j]? with
    | none => simp [hs]
    | some s =>
      have hrange := h.range entries (List.mem_of_getElem? hentries) s (List.mem_of_getElem? hs)
      simpa [hs] using hrange

/-- An alignment of `n` and `m` indices: every index is in one column, in order. -/
structure IsAlignment (n m : ℕ) (columns : List Column) : Prop where
  left : columns.filterMap Prod.fst = List.range n
  right : columns.filterMap Prod.snd = List.range m
  paired : (none, none) ∉ columns

/-- The cost of a column that leaves out one side, after the column before it: the first
column of a run opens the gap, and the others extend it. -/
def gapCost (gaps : Gaps) (leavesOut : Column → Bool) (before : Option Column) : ℚ :=
  if before.any leavesOut then gaps.gapExtend else gaps.gapOpen

/-- The column leaves out the second side. -/
def Column.isLeft (column : Column) : Bool := column.1.isSome && column.2.isNone

/-- The column leaves out the first side. -/
def Column.isRight (column : Column) : Bool := column.1.isNone && column.2.isSome

/-- The score of a column after the column before it. -/
def columnScore (scores : Scores) (gaps : Gaps) (before : Option Column) : Column → ℚ
  | (some i, some j) => score scores i j
  | (some _, none) => gapCost gaps Column.isLeft before
  | (none, some _) => gapCost gaps Column.isRight before
  | (none, none) => 0

/-- The score of columns listed from the last to the first. -/
def backwardScore (scores : Scores) (gaps : Gaps) : List Column → ℚ
  | [] => 0
  | column :: earlier =>
    columnScore scores gaps earlier.head? column + backwardScore scores gaps earlier

/-- The affine score of an alignment. -/
def affineScore (scores : Scores) (gaps : Gaps) (columns : List Column) : ℚ :=
  backwardScore scores gaps columns.reverse

/-! ## Bounds -/

/-- The sentinel stays below the score of every path of `length` columns. -/
def FarBelow (neg : ℚ) (gaps : Gaps) (length : ℕ) : Prop :=
  neg < length * (gaps.gapOpen + gaps.gapExtend - 1)

/-- The entry belongs to a path from the origin: the others only carry the sentinel. -/
def Reachable (i j : ℕ) : Table → Prop
  | .M => i = 0 ∧ j = 0 ∨ 0 < i ∧ 0 < j
  | .X => 0 < i ∧ (j = 0 ∨ 1 < i)
  | .Y => 0 < j ∧ (i = 0 ∨ 1 < j)

section Bounds

variable {neg : ℚ} {scores : Scores} {gaps : Gaps} {n m : ℕ}

/-- At the origin the empty alignment is a match of value 0. -/
theorem row_zero_zero : row neg scores gaps 0 0 = ⟨0, neg, neg⟩ := rfl

/-- In the first row every step of the right side is in one gap. -/
theorem row_zero_succ (j : ℕ) : row neg scores gaps 0 (j + 1) = ⟨neg, neg, gaps.run j⟩ := rfl

/-- In the first column every step of the left side is in one gap. -/
theorem row_succ_zero (i : ℕ) : row neg scores gaps (i + 1) 0 = ⟨neg, gaps.run i, neg⟩ := rfl

/-- An inner cell is computed from its three neighbours. -/
theorem row_succ_succ (i j : ℕ) : row neg scores gaps (i + 1) (j + 1) =
    nextCell gaps (score scores i j) (row neg scores gaps i j) (row neg scores gaps i (j + 1))
      (row neg scores gaps (i + 1) j) := rfl

/-- The value in each table is at most the best one. -/
theorem Cell.value_le_best (cell : Cell) (table : Table) : cell.value table ≤ cell.best := by
  cases table with
  | M => exact le_max_of_le_left (le_max_left _ _)
  | X => exact le_max_of_le_left (le_max_right _ _)
  | Y => exact le_max_right _ _

/-- The best value is at most what bounds all three. -/
theorem Cell.best_le {cell : Cell} {bound : ℚ} (h : ∀ table, cell.value table ≤ bound) :
    cell.best ≤ bound :=
  max_le (max_le (h .M) (h .X)) (h .Y)

/-- Some table is reachable at every position. -/
theorem exists_reachable (i j : ℕ) : ∃ table, Reachable i j table := by
  rcases Nat.eq_zero_or_pos i with rfl | hi
  · rcases Nat.eq_zero_or_pos j with rfl | hj
    · exact ⟨.M, .inl ⟨rfl, rfl⟩⟩
    · exact ⟨.Y, hj, .inl rfl⟩
  · rcases Nat.eq_zero_or_pos j with rfl | hj
    · exact ⟨.X, hi, .inl rfl⟩
    · exact ⟨.M, .inr ⟨hi, hj⟩⟩

/-- Costs of gaps are negative. -/
structure Gaps.Negative (gaps : Gaps) : Prop where
  gapOpen : gaps.gapOpen < 0
  gapExtend : gaps.gapExtend < 0

variable (neg scores) in
/-- Entries that no path reaches hold the sentinel, or less. -/
theorem value_le_neg (hgaps : gaps.Negative) {i j : ℕ} {table : Table}
    (h : ¬ Reachable i j table) : (row neg scores gaps i j).value table ≤ neg := by
  obtain ⟨hopen, hextend⟩ := hgaps
  cases table with
  | M =>
    cases i with
    | zero =>
      cases j with
      | zero => exact absurd (.inl ⟨rfl, rfl⟩) h
      | succ j => exact le_refl neg
    | succ i =>
      cases j with
      | zero => exact le_refl neg
      | succ j => exact absurd (.inr ⟨by omega, by omega⟩) h
  | X =>
    cases i with
    | zero => cases j <;> exact le_refl neg
    | succ i =>
      simp only [Reachable] at h
      obtain ⟨rfl, j, rfl⟩ : i = 0 ∧ ∃ k, j = k + 1 := ⟨by omega, j - 1, by omega⟩
      simp only [row_succ_succ, row_zero_succ, nextCell, Cell.value]
      exact max_le (by linarith) (by linarith)
  | Y =>
    cases j with
    | zero => cases i <;> exact le_refl neg
    | succ j =>
      simp only [Reachable] at h
      obtain ⟨rfl, i, rfl⟩ : j = 0 ∧ ∃ k, i = k + 1 := ⟨by omega, i - 1, by omega⟩
      simp only [row_succ_succ, row_succ_zero, nextCell, Cell.value]
      exact max_le (by linarith) (by linarith)

/-- The least that a path can score. -/
def lowest (gaps : Gaps) (length : ℕ) : ℚ :=
  length * (gaps.gapOpen + gaps.gapExtend - 1)

/-- The lower bound decreases with each step. -/
theorem lowest_succ (gaps : Gaps) (length : ℕ) :
    lowest gaps (length + 1) = lowest gaps length + (gaps.gapOpen + gaps.gapExtend - 1) := by
  simp only [lowest, Nat.cast_add, Nat.cast_one]
  ring

/-- A gap as long as a whole side lies above the lower bound. -/
theorem lowest_le_run (hgaps : gaps.Negative) (i : ℕ) : lowest gaps (i + 1) ≤ gaps.run i := by
  obtain ⟨hopen, hextend⟩ := hgaps
  induction i with
  | zero =>
    simp only [lowest, Gaps.run, Nat.cast_zero, zero_add, Nat.cast_one]
    linarith
  | succ i ih =>
    have hrun : gaps.run (i + 1) = gaps.run i + gaps.gapExtend := by
      simp only [Gaps.run, Nat.cast_add, Nat.cast_one]
      ring
    rw [lowest_succ, hrun]
    linarith

variable (neg) in
/-- Entries that a path reaches are as large as a path can be low. -/
theorem lowest_le_value (hgaps : gaps.Negative) (hrange : InRange scores) (i j : ℕ)
    (table : Table) (h : Reachable i j table) :
    lowest gaps (i + j) ≤ (row neg scores gaps i j).value table := by
  have hopen := hgaps.gapOpen
  have hextend := hgaps.gapExtend
  induction i generalizing j table with
  | zero =>
    cases j with
    | zero =>
      cases table with
      | M => simp [lowest, row_zero_zero, Cell.value]
      | X => exact absurd h.1 (lt_irrefl 0)
      | Y => exact absurd h.1 (lt_irrefl 0)
    | succ j =>
      cases table with
      | M => simp [Reachable] at h
      | X => exact absurd h.1 (lt_irrefl 0)
      | Y =>
        rw [Nat.zero_add]
        exact lowest_le_run hgaps j
  | succ i ihi =>
    induction j generalizing table with
    | zero =>
      cases table with
      | M => simp [Reachable] at h
      | X => exact lowest_le_run hgaps i
      | Y => exact absurd h.1 (lt_irrefl 0)
    | succ j ihj =>
      have hsum : i + 1 + (j + 1) = i + j + 1 + 1 := by omega
      rw [row_succ_succ, hsum, lowest_succ, lowest_succ]
      cases table with
      | M =>
        obtain ⟨before, hbefore⟩ := exists_reachable i j
        have hvalue := ihi j before hbefore
        have hbest := (row neg scores gaps i j).value_le_best before
        have hs := (hrange i j).1
        simp only [nextCell, Cell.value]
        linarith
      | X =>
        have hbefore : Reachable i (j + 1) .M := .inr ⟨by simp only [Reachable] at h; omega, by omega⟩
        have hvalue := ihi (j + 1) .M hbefore
        rw [← Nat.add_assoc, lowest_succ] at hvalue
        simp only [nextCell, Cell.value] at hvalue ⊢
        exact le_max_of_le_left (by linarith)
      | Y =>
        have hbefore : Reachable (i + 1) j .M := .inr ⟨by omega, by simp only [Reachable] at h; omega⟩
        have hvalue := ihj .M hbefore
        rw [Nat.add_right_comm, lowest_succ] at hvalue
        simp only [nextCell, Cell.value] at hvalue ⊢
        exact le_max_of_le_left (by linarith)

/-- What lies far below longer sides lies far below shorter ones. -/
theorem FarBelow.mono (hgaps : gaps.Negative) {k l : ℕ} (h : FarBelow neg gaps l) (hkl : k ≤ l) :
    FarBelow neg gaps k := by
  obtain ⟨hopen, hextend⟩ := hgaps
  have hcast : (k : ℚ) ≤ l := by exact_mod_cast hkl
  simp only [FarBelow] at h ⊢
  nlinarith

/-- What a path does not reach is below what it reaches. -/
theorem reachable_of_le (hgaps : gaps.Negative) (hrange : InRange scores) {i j : ℕ}
    (hneg : FarBelow neg gaps (i + j)) {table other : Table} (hother : Reachable i j other)
    (hle : (row neg scores gaps i j).value other ≤ (row neg scores gaps i j).value table) :
    Reachable i j table := by
  by_contra hnot
  have hhigh := lowest_le_value neg hgaps hrange i j other hother
  have hlow := value_le_neg neg scores hgaps hnot
  have hbelow : neg < lowest gaps (i + j) := hneg
  linarith

end Bounds

end Tracewake.Alignment
