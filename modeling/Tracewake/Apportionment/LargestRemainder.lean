import Mathlib.Algebra.BigOperators.Group.List.Basic
import Mathlib.Algebra.BigOperators.Ring.List
import Mathlib.Algebra.Order.BigOperators.Group.List
import Mathlib.Data.List.Nodup
import Mathlib.Data.Rat.Floor
import Mathlib.Tactic.FieldSimp
import Mathlib.Tactic.Linarith

/-!
# Largest remainder

A whole number is split in proportion to weights: every share is rounded down, and what is
left over goes, one unit each, to the shares with the largest remainders.
-/

namespace Tracewake.Apportionment

variable {total : ℤ} {weights : List ℤ}

/-- The shares, rounded down. -/
def floors (total : ℤ) (weights : List ℤ) : List ℤ :=
  weights.map fun w => total * w / weights.sum

/-- What the rounding has taken from each share. -/
def remainders (total : ℤ) (weights : List ℤ) : List ℤ :=
  weights.map fun w => total * w % weights.sum

/-- The order in which the shares get one unit more: the largest remainder first, and of
equal remainders the first one. -/
def precedes (remainders : List ℤ) (i j : ℕ) : Bool :=
  remainders.getD j 0 < remainders.getD i 0 ||
    (remainders.getD i 0 = remainders.getD j 0 && i ≤ j)

/-- The indices of the shares in that order. -/
def order (remainders : List ℤ) : List ℕ :=
  (List.range remainders.length).mergeSort (precedes remainders)

/-- Add one unit. -/
def bump (parts : List ℤ) (i : ℕ) : List ℤ := parts.modify i (· + 1)

/-- The units that the rounding has left over. -/
def leftover (total : ℤ) (weights : List ℤ) : ℤ := total - (floors total weights).sum

/-- Split by largest remainder. -/
def largestRemainder (total : ℤ) (weights : List ℤ) : List ℤ :=
  ((order (remainders total weights)).take (leftover total weights).toNat).foldl bump
    (floors total weights)

section Bumps

/-- Bumping parts leaves their number. -/
theorem length_bumps (indices : List ℕ) (parts : List ℤ) :
    (indices.foldl bump parts).length = parts.length := by
  induction indices generalizing parts with
  | nil => rfl
  | cons i rest ih => rw [List.foldl_cons, ih, bump, List.length_modify]

/-- A share gets one unit for each time that it is named. -/
theorem getElem?_bumps (indices : List ℕ) (parts : List ℤ) (i : ℕ) :
    (indices.foldl bump parts)[i]? = parts[i]?.map (· + (indices.count i : ℤ)) := by
  induction indices generalizing parts with
  | nil => simp
  | cons j rest ih =>
    rw [List.foldl_cons, ih, bump, List.getElem?_modify]
    by_cases h : j = i
    · subst h
      cases hpart : parts[j]? with
      | none => simp
      | some part =>
        simp only [if_true, Option.map_eq_map, Option.map_some, List.count_cons_self,
          Option.some.injEq]
        push_cast
        ring
    · cases hpart : parts[i]? with
      | none => simp
      | some part => simp [h]

/-- Bumping a part adds 1 to the sum. -/
theorem sum_bump {parts : List ℤ} {i : ℕ} (h : i < parts.length) :
    (bump parts i).sum = parts.sum + 1 := by
  induction parts generalizing i with
  | nil => simp at h
  | cons part rest ih =>
    cases i with
    | zero =>
      simp only [bump, List.modify_zero_cons, List.sum_cons]
      ring
    | succ i =>
      have hrest := ih (i := i) (by simpa using h)
      simp only [bump, List.modify_succ_cons, List.sum_cons] at hrest ⊢
      rw [hrest]
      ring

/-- Each bump adds 1 to the sum. -/
theorem sum_bumps {indices : List ℕ} {parts : List ℤ} (h : ∀ i ∈ indices, i < parts.length) :
    (indices.foldl bump parts).sum = parts.sum + indices.length := by
  induction indices generalizing parts with
  | nil => simp
  | cons i rest ih =>
    have hlength : (bump parts i).length = parts.length := List.length_modify ..
    have hrest : ∀ j ∈ rest, j < (bump parts i).length := by
      intro j hj
      rw [hlength]
      exact h j (List.mem_cons_of_mem i hj)
    rw [List.foldl_cons, ih hrest, sum_bump (h i List.mem_cons_self), List.length_cons]
    push_cast
    ring

end Bumps

section Order

variable {rs : List ℤ}

/-- The order lists every index. -/
theorem order_perm (rs : List ℤ) : (order rs).Perm (List.range rs.length) :=
  List.mergeSort_perm _ _

/-- The order lists no index twice. -/
theorem order_nodup (rs : List ℤ) : (order rs).Nodup :=
  (order_perm rs).nodup_iff.mpr List.nodup_range

/-- No later index has a larger remainder. -/
theorem order_sorted (rs : List ℤ) :
    (order rs).Pairwise fun i j => rs.getD j 0 ≤ rs.getD i 0 := by
  refine (List.pairwise_mergeSort (fun a b c hab hbc => ?_) (fun a b => ?_) _).imp ?_
  · simp only [precedes, Bool.or_eq_true, Bool.and_eq_true, decide_eq_true_eq] at hab hbc ⊢
    omega
  · simp only [precedes, Bool.or_eq_true, Bool.and_eq_true, decide_eq_true_eq]
    omega
  · intro i j h
    simp only [precedes, Bool.or_eq_true, Bool.and_eq_true, decide_eq_true_eq] at h
    omega

/-- The indices that come first have a remainder, if no more are taken than there are. -/
theorem remainder_of_mem_take {n i : ℕ} (hnonneg : ∀ r ∈ rs, 0 ≤ r)
    (hn : n ≤ (rs.filter (· ≠ 0)).length) (hi : i ∈ (order rs).take n) : rs.getD i 0 ≠ 0 := by
  intro hzero
  have hcount : (rs.filter (· ≠ 0)).length =
      ((order rs).filter fun j => rs.getD j 0 ≠ 0).length := by
    have hmap : rs = (List.range rs.length).map fun j => rs.getD j 0 := by
      apply List.ext_getElem
      · simp
      · intro j hj _
        simp [hj]
    conv_lhs => rw [hmap, List.filter_map, List.length_map]
    exact (((order_perm rs).symm.filter _).length_eq)
  have hsplit : (order rs).filter (fun j => rs.getD j 0 ≠ 0) =
      ((order rs).take n).filter (fun j => rs.getD j 0 ≠ 0) ++
        ((order rs).drop n).filter (fun j => rs.getD j 0 ≠ 0) := by
    rw [← List.filter_append, List.take_append_drop]
  -- What comes after an index without a remainder has none either.
  have hrest : ((order rs).drop n).filter (fun j => rs.getD j 0 ≠ 0) = [] := by
    refine List.filter_eq_nil_iff.mpr fun j hj => ?_
    have hsorted := order_sorted rs
    rw [← List.take_append_drop n (order rs), List.pairwise_append] at hsorted
    have hle := hsorted.2.2 i hi j hj
    have hmem : j < rs.length :=
      List.mem_range.mp ((order_perm rs).mem_iff.mp (List.mem_of_mem_drop hj))
    have hge := hnonneg (rs.getD j 0) (by simp [hmem])
    simp only [decide_eq_true_eq, not_not]
    omega
  have hshort : (((order rs).take n).filter fun j => rs.getD j 0 ≠ 0).length <
      ((order rs).take n).length := by
    refine List.length_filter_lt_length_iff_exists.mpr ⟨i, hi, ?_⟩
    simpa using hzero
  rw [hsplit, hrest, List.append_nil] at hcount
  have htake : ((order rs).take n).length ≤ n := by simp
  omega

end Order

section Shares

/-- The remainders make up what is left over. -/
theorem sum_mul_leftover (total : ℤ) (weights : List ℤ) :
    weights.sum * leftover total weights = (remainders total weights).sum := by
  have hdivides : ∀ ws : List ℤ, (ws.map fun w => total * w).sum =
      weights.sum * (ws.map fun w => total * w / weights.sum).sum +
        (ws.map fun w => total * w % weights.sum).sum := by
    intro ws
    induction ws with
    | nil => simp
    | cons w rest ih =>
      simp only [List.map_cons, List.sum_cons, ih, mul_add]
      have := Int.mul_ediv_add_emod (total * w) weights.sum
      linarith
  have hwhole := hdivides weights
  rw [List.sum_map_mul_left, List.map_id'] at hwhole
  unfold leftover floors remainders
  rw [mul_sub, mul_comm weights.sum total]
  linarith

variable (hmass : 0 < weights.sum)
include hmass

/-- A remainder is smaller than the sum of the weights. -/
theorem remainders_bounds {r : ℤ} (h : r ∈ remainders total weights) : 0 ≤ r ∧ r < weights.sum := by
  obtain ⟨w, _, rfl⟩ := List.mem_map.mp h
  exact ⟨Int.emod_nonneg _ (by omega), Int.emod_lt_of_pos _ hmass⟩

/-- The floors never exceed the total. -/
theorem leftover_nonneg (total : ℤ) : 0 ≤ leftover total weights := by
  have hsum := sum_mul_leftover total weights
  have hnonneg : 0 ≤ (remainders total weights).sum :=
    List.sum_nonneg fun r hr => (remainders_bounds hmass hr).1
  rw [← hsum] at hnonneg
  exact nonneg_of_mul_nonneg_right hnonneg hmass

/-- Fewer units are left over than there are shares with a remainder, if there are any. -/
theorem leftover_le (total : ℤ) :
    leftover total weights ≤ ((remainders total weights).filter (· ≠ 0)).length := by
  have hbound : ∀ rs : List ℤ, (∀ r ∈ rs, 0 ≤ r ∧ r < weights.sum) →
      rs.sum ≤ (rs.filter (· ≠ 0)).length * weights.sum := by
    intro rs
    induction rs with
    | nil => simp
    | cons r rest ih =>
      intro hrs
      have hrest := ih fun x hx => hrs x (List.mem_cons_of_mem r hx)
      have hr := hrs r List.mem_cons_self
      by_cases hzero : r = 0
      · simpa [hzero] using hrest
      · simp only [List.sum_cons, List.filter_cons, hzero, ne_eq, not_false_eq_true,
          decide_true, if_true, List.length_cons]
        push_cast
        rw [add_mul, one_mul]
        simp only [ne_eq] at hrest
        linarith
  have hsum := hbound (remainders total weights) fun r hr => remainders_bounds hmass hr
  rw [← sum_mul_leftover, mul_comm] at hsum
  exact le_of_mul_le_mul_right hsum hmass

/-- What is left over is no more than the number of parts with a remainder. -/
theorem toNat_leftover_le (total : ℤ) :
    (leftover total weights).toNat ≤ ((remainders total weights).filter (· ≠ 0)).length := by
  have := leftover_le hmass total
  omega

/-- The parts make up the total. -/
theorem sum_largestRemainder (total : ℤ) : (largestRemainder total weights).sum = total := by
  have hin : ∀ i ∈ (order (remainders total weights)).take (leftover total weights).toNat,
      i < (floors total weights).length := by
    intro i hi
    have := List.mem_range.mp ((order_perm _).mem_iff.mp (List.mem_of_mem_take hi))
    simpa [remainders, floors] using this
  have hcount : (order (remainders total weights)).length = weights.length := by
    rw [(order_perm _).length_eq, List.length_range, remainders, List.length_map]
  have hfew := toNat_leftover_le hmass total
  have hfilter := List.length_filter_le (fun r => decide (r ≠ 0)) (remainders total weights)
  have hsame : (remainders total weights).length = weights.length := List.length_map ..
  have hnonneg := leftover_nonneg hmass total
  rw [largestRemainder, sum_bumps hin, List.length_take, hcount]
  have hmin : min (leftover total weights).toNat weights.length =
      (leftover total weights).toNat := by omega
  rw [hmin, Int.toNat_of_nonneg hnonneg]
  unfold leftover
  ring

/-- A part is its floor, or one more where the rounding has taken something. -/
theorem largestRemainder_getElem? {i : ℕ} {part w : ℤ}
    (hpart : (largestRemainder total weights)[i]? = some part) (hw : weights[i]? = some w) :
    part = total * w / weights.sum ∨
      (part = total * w / weights.sum + 1 ∧ total * w % weights.sum ≠ 0) := by
  rw [largestRemainder, getElem?_bumps] at hpart
  have hfloor : (floors total weights)[i]? = some (total * w / weights.sum) := by
    simp [floors, hw]
  rw [hfloor, Option.map_some, Option.some.injEq] at hpart
  set taken := (order (remainders total weights)).take (leftover total weights).toNat with htaken
  have hnodup : taken.Nodup := (List.take_sublist _ _).nodup (order_nodup _)
  by_cases hmem : i ∈ taken
  · right
    rw [List.nodup_iff_count_eq_one.mp hnodup i hmem] at hpart
    have hremainder := remainder_of_mem_take
      (fun r hr => (remainders_bounds hmass hr).1) (toNat_leftover_le hmass total) hmem
    refine ⟨by simpa using hpart.symm, ?_⟩
    simpa [remainders, hw] using hremainder
  · left
    rw [List.count_eq_zero_of_not_mem hmem] at hpart
    simpa using hpart.symm

/-- A part is its exact share, rounded down or up. -/
theorem floor_or_ceil {i : ℕ} {part w : ℤ}
    (hpart : (largestRemainder total weights)[i]? = some part) (hw : weights[i]? = some w) :
    part = ⌊(total * w : ℚ) / weights.sum⌋ ∨ part = ⌈(total * w : ℚ) / weights.sum⌉ := by
  have hpos : (0 : ℚ) < weights.sum := by exact_mod_cast hmass
  have hdivides : weights.sum * (total * w / weights.sum) + total * w % weights.sum = total * w :=
    Int.mul_ediv_add_emod _ _
  have hlt : total * w % weights.sum < weights.sum := Int.emod_lt_of_pos _ hmass
  have hge : 0 ≤ total * w % weights.sum := Int.emod_nonneg _ (by omega)
  rcases largestRemainder_getElem? hmass hpart hw with rfl | ⟨rfl, hrest⟩
  · left
    refine (Int.floor_eq_iff.mpr ⟨?_, ?_⟩).symm
    · rw [le_div_iff₀ hpos]
      have : (total * w / weights.sum) * weights.sum ≤ total * w := by linarith
      exact_mod_cast this
    · rw [div_lt_iff₀ hpos]
      have : total * w < (total * w / weights.sum + 1) * weights.sum := by linarith
      exact_mod_cast this
  · right
    refine (Int.ceil_eq_iff.mpr ⟨?_, ?_⟩).symm
    · rw [lt_div_iff₀ hpos]
      have : (total * w / weights.sum) * weights.sum < total * w := by
        have : 0 < total * w % weights.sum := by omega
        linarith
      rw [Int.cast_add, Int.cast_one, add_sub_cancel_right]
      exact_mod_cast this
    · rw [div_le_iff₀ hpos]
      have : total * w ≤ (total * w / weights.sum + 1) * weights.sum := by linarith
      exact_mod_cast this

/-- No part of a nonnegative total is negative. -/
theorem largestRemainder_nonneg (htotal : 0 ≤ total) (hweights : ∀ w ∈ weights, 0 ≤ w) {part : ℤ}
    (h : part ∈ largestRemainder total weights) : 0 ≤ part := by
  obtain ⟨i, hi, hpart⟩ := List.getElem_of_mem h
  have hlength : i < weights.length := by
    rw [largestRemainder, length_bumps, floors, List.length_map] at hi
    exact hi
  have hw : weights[i]? = some weights[i] := List.getElem?_eq_getElem hlength
  have hfloor : 0 ≤ total * weights[i] / weights.sum :=
    Int.ediv_nonneg (mul_nonneg htotal (hweights _ (List.getElem_mem hlength))) hmass.le
  rcases largestRemainder_getElem? hmass (List.getElem?_eq_some_iff.mpr ⟨hi, hpart⟩) hw with
    rfl | ⟨rfl, _⟩
  · exact hfloor
  · omega

end Shares

end Tracewake.Apportionment
