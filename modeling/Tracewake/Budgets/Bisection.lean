import Mathlib.Order.Bounds.Basic

/-!
# Bisection

A binary search for the largest limit that fits. It asks about few limits, and is right
because what fits under a limit fits under every smaller one.
-/

namespace Tracewake.Budgets

/-- The loop of a binary search, with the best limit found so far. -/
def bisect (fits : ℕ → Bool) (low high : ℤ) (best : ℕ) : ℕ :=
  if low ≤ high then
    let mid := (low + high) / 2
    if fits mid.toNat then bisect fits (mid + 1) high mid.toNat
    else bisect fits low (mid - 1) best
  else best
termination_by (high + 1 - low).toNat
decreasing_by all_goals omega

/-- What the loop knows: the limits below `low` fit, and those above `high` do not. -/
structure Bracket (fits : ℕ → Bool) (top : ℕ) (low high : ℤ) (best : ℕ) : Prop where
  nonneg : 0 ≤ low
  le_top : high ≤ top
  gap : low ≤ high + 1
  below : ∀ l : ℕ, l < low → fits l = true
  above : ∀ l : ℕ, high < l → l ≤ top → fits l = false
  best_eq : (best : ℤ) = max 0 (low - 1)

section Bisect

variable {fits : ℕ → Bool}

/-- When the search begins, nothing is known of the limits up to the top. -/
theorem bracket_start (fits : ℕ → Bool) (top : ℕ) : Bracket fits top 0 top 0 where
  nonneg := le_rfl
  le_top := le_rfl
  gap := by omega
  below l hl := by omega
  above l hl htop := by omega
  best_eq := by omega

/-- The loop ends where no limit is left that it does not know. -/
theorem Bracket.bisect {top : ℕ} (hclosed : ∀ k l, k ≤ l → fits l = true → fits k = true)
    {low high : ℤ} {best : ℕ} (h : Bracket fits top low high best) :
    ∃ last : ℤ, Bracket fits top (last + 1) last (bisect fits low high best) := by
  fun_induction Budgets.bisect fits low high best with
  | case1 low high best hle mid hfits ih =>
    apply ih
    have hmid : mid = (low + high) / 2 := rfl
    have hlow := h.nonneg
    have htop := h.le_top
    exact {
      nonneg := by omega
      le_top := htop
      gap := by omega
      below := fun l hl => hclosed l mid.toNat (by omega) hfits
      above := h.above
      best_eq := by omega }
  | case2 low high best hle mid hmisses ih =>
    apply ih
    have hmid : mid = (low + high) / 2 := rfl
    have hlow := h.nonneg
    have htop := h.le_top
    refine ⟨hlow, by omega, by omega, h.below, ?_, h.best_eq⟩
    intro l hl hltop
    rw [← Bool.not_eq_true]
    intro hfits
    exact hmisses (hclosed mid.toNat l (by omega) hfits)
  | case3 low high best hgt =>
    have hgap := h.gap
    obtain rfl : low = high + 1 := by omega
    exact ⟨high, h⟩

/-- The search finds the largest limit that fits. -/
theorem bisect_isGreatest (top : ℕ) (hclosed : ∀ k l, k ≤ l → fits l = true → fits k = true)
    (hzero : fits 0 = true) : IsGreatest {l | l ≤ top ∧ fits l = true} (bisect fits 0 top 0) := by
  obtain ⟨last, hlast⟩ := (bracket_start fits top).bisect hclosed
  have hle := hlast.le_top
  have hbest := hlast.best_eq
  have hnonneg := hlast.nonneg
  have hlast0 : 0 ≤ last := by
    by_contra hneg
    have habove := hlast.above 0 (by omega) (by omega)
    rw [hzero] at habove
    cases habove
  constructor
  · exact ⟨by omega, hlast.below _ (by omega)⟩
  · rintro l ⟨hl, hfits⟩
    by_contra hgt
    have habove := hlast.above l (by omega) hl
    rw [hfits] at habove
    cases habove

/-- The search ends at zero when not even that limit fits. -/
theorem bisect_eq_zero (top : ℕ) (hclosed : ∀ k l, k ≤ l → fits l = true → fits k = true)
    (hzero : fits 0 = false) : bisect fits 0 top 0 = 0 := by
  obtain ⟨last, hlast⟩ := (bracket_start fits top).bisect hclosed
  have hbest := hlast.best_eq
  by_contra hne
  have hbelow := hlast.below 0 (by omega)
  rw [hzero] at hbelow
  cases hbelow

end Bisect

end Tracewake.Budgets
