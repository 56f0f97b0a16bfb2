import Mathlib.Data.List.Chain
import Tracewake.Alignment.Gotoh

/-!
# The traceback

The traceback stores no back-pointers. From a reachable entry every step goes to a
reachable entry that explains its value, so the columns form an alignment whose score is
the value of the entry, and no gap directly follows a gap of the other side.
-/

namespace Tracewake.Alignment

variable {neg : ℚ} {scores : Scores} {gaps : Gaps} {n m : ℕ}

/-- The table whose entries end with a column. -/
def tableOf : Option Column → Table
  | some (some _, none) => .X
  | some (none, some _) => .Y
  | _ => .M

/-- A step of the left side alone extends a gap that stands before it and opens one
otherwise. -/
theorem gapCost_left (gaps : Gaps) (before : Option Column) :
    gapCost gaps Column.isLeft before =
      if tableOf before = .X then gaps.gapExtend else gaps.gapOpen := by
  rcases before with _ | ⟨_ | i, _ | j⟩ <;> simp [gapCost, tableOf, Column.isLeft]

/-- A step of the right side alone extends a gap that stands before it and opens one
otherwise. -/
theorem gapCost_right (gaps : Gaps) (before : Option Column) :
    gapCost gaps Column.isRight before =
      if tableOf before = .Y then gaps.gapExtend else gaps.gapOpen := by
  rcases before with _ | ⟨_ | i, _ | j⟩ <;> simp [gapCost, tableOf, Column.isRight]

/-- The columns, from the last to the first, cover the indices below `i` and `j`. -/
structure Covers (i j : ℕ) (columns : List Column) : Prop where
  left : columns.filterMap Prod.fst = (List.range i).reverse
  right : columns.filterMap Prod.snd = (List.range j).reverse
  paired : (none, none) ∉ columns

/-- Counting down begins with the largest number. -/
theorem range_succ_reverse (i : ℕ) :
    (List.range (i + 1)).reverse = i :: (List.range i).reverse := by
  rw [List.range_succ, List.reverse_append]
  rfl

/-- A match covers one more step of either side. -/
theorem Covers.match {i j : ℕ} {columns : List Column} (h : Covers i j columns) :
    Covers (i + 1) (j + 1) ((some i, some j) :: columns) where
  left := by simp [h.left, range_succ_reverse]
  right := by simp [h.right, range_succ_reverse]
  paired := by simp [h.paired]

/-- A step of the left side alone covers one more step of that side. -/
theorem Covers.leaveRight {i j : ℕ} {columns : List Column} (h : Covers i j columns) :
    Covers (i + 1) j ((some i, none) :: columns) where
  left := by simp [h.left, range_succ_reverse]
  right := by simp [h.right]
  paired := by simp [h.paired]

/-- A step of the right side alone covers one more step of that side. -/
theorem Covers.leaveLeft {i j : ℕ} {columns : List Column} (h : Covers i j columns) :
    Covers i (j + 1) ((none, some j) :: columns) where
  left := by simp [h.left]
  right := by simp [h.right, range_succ_reverse]
  paired := by simp [h.paired]

/-- No columns cover no steps. -/
theorem Covers.nil : Covers 0 0 [] := ⟨rfl, rfl, List.not_mem_nil⟩

/-- Columns that cover both sides from the end are an alignment when they are reversed. -/
theorem Covers.isAlignment {columns : List Column} (h : Covers n m columns) :
    IsAlignment n m columns.reverse where
  left := by rw [List.filterMap_reverse, h.left, List.reverse_reverse]
  right := by rw [List.filterMap_reverse, h.right, List.reverse_reverse]
  paired := by simpa using h.paired

/-- An alignment that is reversed covers both sides from the end. -/
theorem IsAlignment.covers {columns : List Column} (h : IsAlignment n m columns) :
    Covers n m columns.reverse where
  left := by rw [List.filterMap_reverse, h.left]
  right := by rw [List.filterMap_reverse, h.right]
  paired := by simpa using h.paired

/-- No gap is next to a gap of the other side. -/
def Plain (columns : List Column) : Prop :=
  columns.IsChain fun a b => ¬ (a.isLeft = true ∧ b.isRight = true) ∧
    ¬ (a.isRight = true ∧ b.isLeft = true)

/-- The columns explain an entry of a table. -/
structure Explains (neg : ℚ) (scores : Scores) (gaps : Gaps) (i j : ℕ) (table : Table)
    (columns : List Column) : Prop where
  covers : Covers i j columns
  score : backwardScore scores gaps columns = (row neg scores gaps i j).value table
  last : tableOf columns.head? = table
  plain : Plain columns

/-- The entry behind a match column is the best of its position. -/
theorem value_previousTable (cell : Cell) : cell.value (previousTable cell) = cell.best := by
  unfold previousTable Cell.best
  split
  · next h => exact (max_eq_right h).symm
  · next h =>
    rw [max_eq_left (le_of_not_ge h)]
    split
    · next hx => exact (max_eq_right hx).symm
    · next hx => exact (max_eq_left (le_of_not_ge hx)).symm

variable (scores) in
/-- The recurrence of `X` also holds in its first column. -/
theorem x_succ (hgaps : gaps.Negative) {i j : ℕ}
    (hneg : FarBelow neg gaps (i + 1 + j)) :
    (row neg scores gaps (i + 1) j).x =
      max ((row neg scores gaps i j).m + gaps.gapOpen)
        ((row neg scores gaps i j).x + gaps.gapExtend) := by
  have hopen := hgaps.gapOpen
  have hextend := hgaps.gapExtend
  cases j with
  | succ j => rfl
  | zero =>
    cases i with
    | zero =>
      have hbelow : neg < lowest gaps 1 := hneg
      simp only [lowest, Nat.cast_one, one_mul] at hbelow
      simp only [row_succ_zero, row_zero_zero, Gaps.run, Nat.cast_zero, zero_mul, add_zero, zero_add]
      exact (max_eq_left (by linarith)).symm
    | succ i =>
      have hrun := lowest_le_run hgaps i
      have hbelow : neg < lowest gaps (i + 1 + 1) := hneg
      rw [lowest_succ] at hbelow
      simp only [row_succ_zero]
      rw [max_eq_right (by linarith)]
      simp only [Gaps.run, Nat.cast_add, Nat.cast_one]
      ring

variable (scores) in
/-- The recurrence of `Y` also holds in its first row. -/
theorem y_succ (hgaps : gaps.Negative) {i j : ℕ}
    (hneg : FarBelow neg gaps (i + (j + 1))) :
    (row neg scores gaps i (j + 1)).y =
      max ((row neg scores gaps i j).m + gaps.gapOpen)
        ((row neg scores gaps i j).y + gaps.gapExtend) := by
  have hopen := hgaps.gapOpen
  have hextend := hgaps.gapExtend
  cases i with
  | succ i => rfl
  | zero =>
    cases j with
    | zero =>
      have hbelow : neg < lowest gaps 1 := hneg
      simp only [lowest, Nat.cast_one, one_mul] at hbelow
      simp only [row_zero_succ, row_zero_zero, Gaps.run, Nat.cast_zero, zero_mul, add_zero, zero_add]
      exact (max_eq_left (by linarith)).symm
    | succ j =>
      have hrun := lowest_le_run hgaps j
      have hbelow : neg < lowest gaps (j + 1 + 1) := by rw [← Nat.zero_add (j + 1 + 1)]; exact hneg
      rw [lowest_succ] at hbelow
      simp only [row_zero_succ]
      rw [max_eq_right (by linarith)]
      simp only [Gaps.run, Nat.cast_add, Nat.cast_one]
      ring

/-- At the origin nothing is left to trace. -/
theorem traceback_origin : traceback neg scores gaps 0 0 .M = [] := by
  rw [traceback]
  simp

/-- From a match the trace goes on with the table that gave its value. -/
theorem traceback_match (i j : ℕ) : traceback neg scores gaps (i + 1) (j + 1) .M =
    (some i, some j) ::
      traceback neg scores gaps i j (previousTable (row neg scores gaps i j)) := by
  rw [traceback]
  simp

/-- Where `X` is reachable the traceback goes on in `X` or in `M`. -/
theorem traceback_left {i j : ℕ} (h : Reachable (i + 1) j .X) :
    traceback neg scores gaps (i + 1) j .X =
      (some i, none) :: traceback neg scores gaps i j
        (if (row neg scores gaps i j).m + gaps.gapOpen ≤ (row neg scores gaps i j).x + gaps.gapExtend
            ∧ 0 < i then .X else .M) := by
  have hborder : ¬ (i = 0 ∧ 0 < j) := by
    simp only [Reachable] at h
    omega
  rw [traceback]
  simp [hborder]

/-- Where `Y` is reachable the traceback goes on in `Y` or in `M`. -/
theorem traceback_right {i j : ℕ} (h : Reachable i (j + 1) .Y) :
    traceback neg scores gaps i (j + 1) .Y =
      (none, some j) :: traceback neg scores gaps i j
        (if 0 < j ∧ (row neg scores gaps i j).m + gaps.gapOpen ≤
            (row neg scores gaps i j).y + gaps.gapExtend then .Y else .M) := by
  have hborder : ¬ (j = 0 ∧ 0 < i) := by
    simp only [Reachable] at h
    omega
  rw [traceback]
  simp [hborder]

variable (neg scores) in
/-- An entry above the sentinel is reachable. -/
theorem reachable_of_value (hgaps : gaps.Negative) {i j : ℕ} {table : Table}
    (h : neg < (row neg scores gaps i j).value table) : Reachable i j table := by
  by_contra hnot
  exact absurd (value_le_neg neg scores hgaps hnot) (not_le.mpr h)

/-- A match is explained by what explains the cell before it. -/
theorem Explains.match {i j : ℕ} {columns : List Column}
    (h : Explains neg scores gaps i j (previousTable (row neg scores gaps i j)) columns) :
    Explains neg scores gaps (i + 1) (j + 1) .M ((some i, some j) :: columns) where
  covers := h.covers.match
  score := by
    rw [backwardScore, h.score, value_previousTable, row_succ_succ]
    exact add_comm _ _
  last := rfl
  plain := by
    refine List.isChain_cons.mpr ⟨fun b _ => ?_, h.plain⟩
    simp [Column.isLeft, Column.isRight]

/-- A step of the left side alone is explained by what explains the cell before it, in the
table that gave the value. -/
theorem Explains.leaveRight {i j : ℕ} {columns : List Column} {next : Table}
    (h : Explains neg scores gaps i j next columns) (hnext : next ≠ .Y)
    (hvalue : (row neg scores gaps (i + 1) j).x = (row neg scores gaps i j).value next +
      if next = .X then gaps.gapExtend else gaps.gapOpen) :
    Explains neg scores gaps (i + 1) j .X ((some i, none) :: columns) where
  covers := h.covers.leaveRight
  score := by
    rw [backwardScore, columnScore, gapCost_left, h.last, h.score, add_comm]
    exact hvalue.symm
  last := rfl
  plain := by
    refine List.isChain_cons.mpr ⟨fun b hb => ?_, h.plain⟩
    have hlast := h.last
    rw [Option.mem_def.mp hb] at hlast
    obtain ⟨_ | _, _ | _⟩ := b <;> simp_all [tableOf, Column.isLeft, Column.isRight]

/-- A step of the right side alone is explained by what explains the cell before it, in the
table that gave the value. -/
theorem Explains.leaveLeft {i j : ℕ} {columns : List Column} {next : Table}
    (h : Explains neg scores gaps i j next columns) (hnext : next ≠ .X)
    (hvalue : (row neg scores gaps i (j + 1)).y = (row neg scores gaps i j).value next +
      if next = .Y then gaps.gapExtend else gaps.gapOpen) :
    Explains neg scores gaps i (j + 1) .Y ((none, some j) :: columns) where
  covers := h.covers.leaveLeft
  score := by
    rw [backwardScore, columnScore, gapCost_right, h.last, h.score, add_comm]
    exact hvalue.symm
  last := rfl
  plain := by
    refine List.isChain_cons.mpr ⟨fun b hb => ?_, h.plain⟩
    have hlast := h.last
    rw [Option.mem_def.mp hb] at hlast
    obtain ⟨_ | _, _ | _⟩ := b <;> simp_all [tableOf, Column.isLeft, Column.isRight]

/-- The step of the traceback in `X` goes to the entry that `X` was computed from. -/
theorem left_step (hgaps : gaps.Negative) (hrange : InRange scores) {i j : ℕ}
    (hneg : FarBelow neg gaps (i + 1 + j)) (h : Reachable (i + 1) j .X) :
    let next := if (row neg scores gaps i j).m + gaps.gapOpen ≤
      (row neg scores gaps i j).x + gaps.gapExtend ∧ 0 < i then Table.X else .M
    next ≠ .Y ∧ Reachable i j next ∧ (row neg scores gaps (i + 1) j).x =
      (row neg scores gaps i j).value next +
        if next = .X then gaps.gapExtend else gaps.gapOpen := by
  have hopen := hgaps.gapOpen
  have hextend := hgaps.gapExtend
  have hx := x_succ scores hgaps hneg
  have hlow := lowest_le_value neg hgaps hrange (i + 1) j .X h
  have hbelow : neg < lowest gaps (i + 1 + j) := hneg
  simp only [Cell.value] at hlow
  intro next
  by_cases hstay : (row neg scores gaps i j).m + gaps.gapOpen ≤
      (row neg scores gaps i j).x + gaps.gapExtend ∧ 0 < i
  · have hnext : next = .X := if_pos hstay
    rw [max_eq_right hstay.1] at hx
    rw [hnext]
    refine ⟨by decide, reachable_of_value neg scores hgaps ?_, hx⟩
    simp only [Cell.value]
    linarith
  · have hnext : next = .M := if_neg hstay
    rw [hnext]
    by_cases hi : 0 < i
    · have hless : (row neg scores gaps i j).x + gaps.gapExtend <
          (row neg scores gaps i j).m + gaps.gapOpen := by
        by_contra hnot
        exact hstay ⟨not_lt.mp hnot, hi⟩
      rw [max_eq_left hless.le] at hx
      refine ⟨by decide, reachable_of_value neg scores hgaps ?_, hx⟩
      simp only [Cell.value]
      linarith
    · obtain ⟨rfl, rfl⟩ : i = 0 ∧ j = 0 := by
        simp only [Reachable] at h
        omega
      refine ⟨by decide, .inl ⟨rfl, rfl⟩, ?_⟩
      simp [row_succ_zero, row_zero_zero, Gaps.run, Cell.value]

/-- The step of the traceback in `Y` goes to the entry that `Y` was computed from. -/
theorem right_step (hgaps : gaps.Negative) (hrange : InRange scores) {i j : ℕ}
    (hneg : FarBelow neg gaps (i + (j + 1))) (h : Reachable i (j + 1) .Y) :
    let next := if 0 < j ∧ (row neg scores gaps i j).m + gaps.gapOpen ≤
      (row neg scores gaps i j).y + gaps.gapExtend then Table.Y else .M
    next ≠ .X ∧ Reachable i j next ∧ (row neg scores gaps i (j + 1)).y =
      (row neg scores gaps i j).value next +
        if next = .Y then gaps.gapExtend else gaps.gapOpen := by
  have hopen := hgaps.gapOpen
  have hextend := hgaps.gapExtend
  have hy := y_succ scores hgaps hneg
  have hlow := lowest_le_value neg hgaps hrange i (j + 1) .Y h
  have hbelow : neg < lowest gaps (i + (j + 1)) := hneg
  simp only [Cell.value] at hlow
  intro next
  by_cases hstay : 0 < j ∧ (row neg scores gaps i j).m + gaps.gapOpen ≤
      (row neg scores gaps i j).y + gaps.gapExtend
  · have hnext : next = .Y := if_pos hstay
    rw [max_eq_right hstay.2] at hy
    rw [hnext]
    refine ⟨by decide, reachable_of_value neg scores hgaps ?_, hy⟩
    simp only [Cell.value]
    linarith
  · have hnext : next = .M := if_neg hstay
    rw [hnext]
    by_cases hj : 0 < j
    · have hless : (row neg scores gaps i j).y + gaps.gapExtend <
          (row neg scores gaps i j).m + gaps.gapOpen := by
        by_contra hnot
        exact hstay ⟨hj, not_lt.mp hnot⟩
      rw [max_eq_left hless.le] at hy
      refine ⟨by decide, reachable_of_value neg scores hgaps ?_, hy⟩
      simp only [Cell.value]
      linarith
    · obtain ⟨rfl, rfl⟩ : i = 0 ∧ j = 0 := by
        simp only [Reachable] at h
        omega
      refine ⟨by decide, .inl ⟨rfl, rfl⟩, ?_⟩
      simp [row_zero_succ, row_zero_zero, Gaps.run, Cell.value]

/-- The best entry of a position is reachable. -/
theorem reachable_of_best (hgaps : gaps.Negative) (hrange : InRange scores) {i j : ℕ}
    (hneg : FarBelow neg gaps (i + j)) {table : Table}
    (h : (row neg scores gaps i j).value table = (row neg scores gaps i j).best) :
    Reachable i j table := by
  obtain ⟨other, hother⟩ := exists_reachable i j
  refine reachable_of_le hgaps hrange hneg hother ?_
  rw [h]
  exact Cell.value_le_best _ other

/-- From every reachable entry the traceback lists columns that explain it. -/
theorem traceback_explains (hgaps : gaps.Negative) (hrange : InRange scores) (length i j : ℕ)
    (table : Table) (hlength : i + j = length) (hneg : FarBelow neg gaps (i + j))
    (h : Reachable i j table) :
    Explains neg scores gaps i j table (traceback neg scores gaps i j table) := by
  induction length using Nat.strongRecOn generalizing i j table with
  | ind length ih =>
    cases table with
    | M =>
      rcases h with ⟨rfl, rfl⟩ | ⟨hi, hj⟩
      · rw [traceback_origin]
        exact ⟨.nil, rfl, rfl, .nil⟩
      · obtain ⟨i, rfl⟩ : ∃ k, i = k + 1 := ⟨i - 1, by omega⟩
        obtain ⟨j, rfl⟩ : ∃ k, j = k + 1 := ⟨j - 1, by omega⟩
        have hbelow : FarBelow neg gaps (i + j) := hneg.mono hgaps (by omega)
        rw [traceback_match]
        exact (ih (i + j) (by omega) i j _ rfl hbelow
          (reachable_of_best hgaps hrange hbelow (value_previousTable _))).match
    | X =>
      obtain ⟨i, rfl⟩ : ∃ k, i = k + 1 := ⟨i - 1, by have := h.1; omega⟩
      obtain ⟨hnext, hreachable, hvalue⟩ := left_step hgaps hrange hneg h
      rw [traceback_left h]
      exact (ih (i + j) (by omega) i j _ rfl (hneg.mono hgaps (by omega)) hreachable).leaveRight
        hnext hvalue
    | Y =>
      obtain ⟨j, rfl⟩ : ∃ k, j = k + 1 := ⟨j - 1, by have := h.1; omega⟩
      obtain ⟨hnext, hreachable, hvalue⟩ := right_step hgaps hrange hneg h
      rw [traceback_right h]
      exact (ih (i + j) (by omega) i j _ rfl (hneg.mono hgaps (by omega)) hreachable).leaveLeft
        hnext hvalue

/-! ## The result -/

/-- The columns that leave out every index of the second side, from the last. -/
def lefts : ℕ → List Column
  | 0 => []
  | i + 1 => (some i, none) :: lefts i

/-- The columns that leave out every index of the first side, from the last. -/
def rights : ℕ → List Column
  | 0 => []
  | j + 1 => (none, some j) :: rights j

/-- The steps of the left side alone, in their order. -/
theorem lefts_reverse (n : ℕ) : (lefts n).reverse = (List.range n).map fun i => (some i, none) := by
  induction n with
  | zero => rfl
  | succ n ih => simp [lefts, List.range_succ, ih]

/-- The steps of the right side alone, in their order. -/
theorem rights_reverse (m : ℕ) :
    (rights m).reverse = (List.range m).map fun j => (none, some j) := by
  induction m with
  | zero => rfl
  | succ m ih => simp [rights, List.range_succ, ih]

/-- The steps of the left side alone cover it. -/
theorem lefts_covers (n : ℕ) : Covers n 0 (lefts n) := by
  induction n with
  | zero => exact .nil
  | succ n ih => exact ih.leaveRight

/-- The indices of the second side, left over after those of the first. -/
theorem Covers.rights_append {columns : List Column} (h : Covers n 0 columns) (m : ℕ) :
    Covers n m (rights m ++ columns) := by
  induction m with
  | zero => exact h
  | succ m ih => exact ih.leaveLeft

/-- A run costs its opening and one extension for every further column. -/
theorem lefts_score (scores : Scores) (gaps : Gaps) (i : ℕ) :
    backwardScore scores gaps (lefts (i + 1)) = gaps.run i := by
  induction i with
  | zero => simp [lefts, backwardScore, columnScore, gapCost, Gaps.run]
  | succ i ih =>
    rw [lefts, backwardScore, ih]
    simp only [lefts, List.head?_cons, columnScore, gapCost_left, tableOf, if_true, Gaps.run,
      Nat.cast_add, Nat.cast_one]
    ring

/-- A run after columns that do not end with one of its kind. -/
theorem rights_score (scores : Scores) (gaps : Gaps) {columns : List Column}
    (h : tableOf columns.head? ≠ .Y) (j : ℕ) :
    backwardScore scores gaps (rights (j + 1) ++ columns) =
      gaps.run j + backwardScore scores gaps columns := by
  induction j with
  | zero =>
    simp only [rights, List.cons_append, List.nil_append, backwardScore, columnScore, gapCost_right,
      if_neg h, Gaps.run, Nat.cast_zero]
    ring
  | succ j ih =>
    rw [rights, List.cons_append, backwardScore, ih]
    simp only [rights, List.cons_append, List.head?_cons, columnScore, gapCost_right, tableOf,
      if_true, Gaps.run, Nat.cast_add, Nat.cast_one]
    ring

/-- A total with an alignment of `n` and `m` indices that has it. -/
structure Attained (scores : Scores) (gaps : Gaps) (n m : ℕ) (result : ℚ × List Column) :
    Prop where
  alignment : IsAlignment n m result.2
  score : affineScore scores gaps result.2 = result.1

/-- Columns listed from the last make an alignment with their score. -/
theorem Covers.attained {columns : List Column} (h : Covers n m columns) {total : ℚ}
    (hscore : backwardScore scores gaps columns = total) :
    Attained scores gaps n m (total, columns.reverse) where
  alignment := h.isAlignment
  score := by rw [affineScore, List.reverse_reverse, hscore]

/-- Where one side is empty the other is one run. -/
theorem attained_left (scores : Scores) (gaps : Gaps) (hn : n ≠ 0) :
    Attained scores gaps n 0 (gaps.run (n - 1), (List.range n).map fun i => (some i, none)) := by
  obtain ⟨i, rfl⟩ : ∃ i, n = i + 1 := ⟨n - 1, by omega⟩
  rw [← lefts_reverse]
  exact (lefts_covers (i + 1)).attained (lefts_score scores gaps i)

/-- If only the right side has steps, one gap attains its score. -/
theorem attained_right (scores : Scores) (gaps : Gaps) (hm : m ≠ 0) :
    Attained scores gaps 0 m (gaps.run (m - 1), (List.range m).map fun j => (none, some j)) := by
  obtain ⟨j, rfl⟩ : ∃ j, m = j + 1 := ⟨m - 1, by omega⟩
  have hcovers := Covers.rights_append .nil (j + 1)
  have hscore := rights_score scores gaps (by decide : tableOf ([] : List Column).head? ≠ .Y) j
  rw [← rights_reverse]
  rw [List.append_nil] at hcovers hscore
  exact hcovers.attained (by simpa [backwardScore] using hscore)

/-- Two empty sides have the score 0. -/
theorem attained_empty (scores : Scores) (gaps : Gaps) : Attained scores gaps 0 0 (0, []) :=
  Covers.nil.attained rfl

/-- The table that the traceback starts in. -/
def terminal (corner : Cell) : Table :=
  if corner.m = corner.best then .M else if corner.x = corner.best then .X else .Y

/-- The table in which the trace begins has the best value of the corner. -/
theorem value_terminal (corner : Cell) : corner.value (terminal corner) = corner.best := by
  unfold terminal
  split
  · next h => exact h
  · next hm =>
    split
    · next h => exact h
    · next hx =>
      simp only [Cell.best] at hm hx ⊢
      rcases max_choice (max corner.m corner.x) corner.y with h | h
      · rw [h] at hm hx
        rcases max_choice corner.m corner.x with h' | h'
        · exact absurd h'.symm hm
        · exact absurd h'.symm hx
      · exact h.symm

/-- Where neither side is empty, the result is read off the corner of the table. -/
theorem gotoh_eq (neg : ℚ) (scores : Scores) (gaps : Gaps) (hn : scores.length ≠ 0)
    (hm : width scores ≠ 0) : gotoh neg scores gaps =
      let corner := row neg scores gaps scores.length (width scores)
      (corner.best,
        (traceback neg scores gaps scores.length (width scores) (terminal corner)).reverse) := by
  unfold gotoh
  rw [if_neg (fun h => hn h.1), if_neg hn, if_neg hm]
  rfl

/-- The alignment of `gotoh` has the total that it returns. -/
theorem gotoh_attained (hgaps : gaps.Negative) (hrange : InRange scores)
    (hneg : FarBelow neg gaps (scores.length + width scores)) :
    Attained scores gaps scores.length (width scores) (gotoh neg scores gaps) := by
  by_cases hn : scores.length = 0
  · have hscores : scores = [] := List.length_eq_zero_iff.mp hn
    subst hscores
    exact attained_empty [] gaps
  by_cases hm : width scores = 0
  · have heq : gotoh neg scores gaps = (gaps.run (scores.length - 1),
        (List.range scores.length).map fun i => (some i, none)) := by
      unfold gotoh
      rw [if_neg (fun h => hn h.1), if_neg hn, if_pos hm]
    rw [heq, hm]
    exact attained_left scores gaps hn
  · rw [gotoh_eq neg scores gaps hn hm]
    have hvalue := value_terminal (row neg scores gaps scores.length (width scores))
    have hreachable := reachable_of_best hgaps hrange hneg hvalue
    have hexplains := traceback_explains hgaps hrange _ _ _ _ rfl hneg hreachable
    exact hexplains.covers.attained (hexplains.score.trans hvalue)

/-- A rectangular matrix with a row has the width of that row. -/
theorem Rectangular.width_eq (h : Rectangular scores n m) (hn : 0 < n) : width scores = m := by
  cases hscores : scores with
  | nil =>
    have hrows := h.rows
    rw [hscores] at hrows
    simp only [List.length_nil] at hrows
    omega
  | cons line lines => exact h.columns line (by rw [hscores]; exact List.mem_cons_self)

/-- The traceback is sound, for both entry points: it ends, its columns align all the
indices in order, and their affine score is the total. A matrix without rows has no
columns for `gotoh`, and `align` passes on none. -/
theorem traceback_sound (neg : ℚ) (scores : Scores) (gaps : Gaps) (n m : ℕ)
    (hscores : Rectangular scores n m) (hgaps : gaps.Negative)
    (hneg : FarBelow neg gaps (n + m)) :
    Attained scores gaps n m (align neg scores gaps n m) ∧
      ((n = 0 → m = 0) → Attained scores gaps n m (gotoh neg scores gaps)) := by
  have hgotoh : (n = 0 → m = 0) → Attained scores gaps n m (gotoh neg scores gaps) := by
    intro hempty
    have hrows := hscores.rows
    have hwidth : width scores = m := by
      rcases Nat.eq_zero_or_pos n with rfl | hn
      · rw [hempty rfl, List.length_eq_zero_iff.mp hrows]
        rfl
      · exact hscores.width_eq hn
    rw [← hrows, ← hwidth] at hneg ⊢
    exact gotoh_attained hgaps hscores.inRange hneg
  refine ⟨?_, hgotoh⟩
  unfold align
  split
  · next h =>
    obtain ⟨rfl, rfl⟩ := h
    exact attained_empty scores gaps
  · next hboth =>
    split
    · next hn =>
      subst hn
      exact attained_right scores gaps (fun hm => hboth ⟨rfl, hm⟩)
    · next hn =>
      split
      · next hm =>
        subst hm
        exact attained_left scores gaps hn
      · next hm => exact hgotoh (fun h => absurd h hn)

/-- The sentinel of the source, its default costs and a matrix with one row. -/
theorem traceback_sound_row :
    Attained [[1, -1]] ⟨-1, -1 / 5⟩ 1 2 (align (-10 ^ 30) [[1, -1]] ⟨-1, -1 / 5⟩ 1 2) ∧
      Attained [[1, -1]] ⟨-1, -1 / 5⟩ 1 2 (gotoh (-10 ^ 30) [[1, -1]] ⟨-1, -1 / 5⟩) := by
  have h := traceback_sound (-10 ^ 30) [[1, -1]] ⟨-1, -1 / 5⟩ 1 2
    ⟨rfl, by simp, by norm_num⟩ ⟨by norm_num, by norm_num⟩ (by norm_num [FarBelow])
  exact ⟨h.1, h.2 (by decide)⟩

end Tracewake.Alignment
