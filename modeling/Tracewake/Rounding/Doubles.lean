import Mathlib.Algebra.Order.Floor.Ring
import Mathlib.Data.Int.Log
import Mathlib.Data.Rat.Floor
import Mathlib.Tactic.FieldSimp
import Mathlib.Tactic.Linarith
import Mathlib.Tactic.NormNum

/-!
# Rounded quotients

The quotient of two natural numbers as a double, and a double as a whole number: both are
rounded to the nearest value, and to the even one of two that are equally near. Rounding
is monotone, so that a quotient that does not exceed a number is rounded to a double that
does not exceed the one of the number.
-/

namespace Tracewake.Rounding

/-- Round to the nearest whole number, halves to the even one. -/
def roundEven (q : ℚ) : ℤ :=
  if q - ⌊q⌋ < 1 / 2 then ⌊q⌋
  else if 1 / 2 < q - ⌊q⌋ then ⌊q⌋ + 1
  else if ⌊q⌋ % 2 = 0 then ⌊q⌋
  else ⌊q⌋ + 1

/-- The distance of the doubles near a positive number of the normal range. -/
def ulp (q : ℚ) : ℚ := 2 ^ (Int.log 2 q - 52)

/-- The nearest double, as long as there are doubles as large as that. -/
def nearest (q : ℚ) : ℚ := roundEven (q / ulp q) * ulp q

/-- The quotient of two numbers as a double. `none` where it is too large for one. The
quotient is zero or in the normal range. -/
def trueDiv (a b : ℕ) : Option ℚ :=
  if nearest ((a : ℚ) / b) < 2 ^ 1024 then some (nearest ((a : ℚ) / b)) else none

section RoundEven

variable {q r : ℚ}

/-- Rounding goes up by less than a whole. -/
theorem roundEven_le (q : ℚ) : roundEven q ≤ ⌊q⌋ + 1 := by
  unfold roundEven
  split_ifs <;> omega

/-- Rounding never goes below the floor. -/
theorem floor_le_roundEven (q : ℚ) : ⌊q⌋ ≤ roundEven q := by
  unfold roundEven
  split_ifs <;> omega

/-- An integer is rounded to itself. -/
@[simp] theorem roundEven_intCast (n : ℤ) : roundEven n = n := by
  simp [roundEven]

/-- Rounding keeps the order. -/
theorem roundEven_mono (h : q ≤ r) : roundEven q ≤ roundEven r := by
  have hfloor : ⌊q⌋ ≤ ⌊r⌋ := Int.floor_mono h
  rcases hfloor.lt_or_eq with hlt | heq
  · have := roundEven_le q
    have := floor_le_roundEven r
    omega
  · unfold roundEven
    rw [heq]
    have hq : q - ⌊r⌋ ≤ r - ⌊r⌋ := by linarith
    split_ifs
    all_goals first | omega | (exfalso; linarith)

/-- What is not negative is not rounded below 0. -/
theorem roundEven_nonneg (h : 0 ≤ q) : 0 ≤ roundEven q :=
  (Int.floor_nonneg.mpr h).trans (floor_le_roundEven q)

end RoundEven

section Nearest

variable {q r : ℚ}

/-- The unit in the last place is positive. -/
theorem ulp_pos (q : ℚ) : 0 < ulp q := zpow_pos (by norm_num) _

/-- Zero is a float. -/
@[simp] theorem nearest_zero : nearest 0 = 0 := by
  have hzero : roundEven 0 = 0 := by simpa using roundEven_intCast 0
  simp [nearest, hzero]

/-- What is not negative has a nearest float that is not negative. -/
theorem nearest_nonneg (h : 0 ≤ q) : 0 ≤ nearest q := by
  have hround : 0 ≤ roundEven (q / ulp q) := roundEven_nonneg (div_nonneg h (ulp_pos q).le)
  have hcast : (0 : ℚ) ≤ roundEven (q / ulp q) := by exact_mod_cast hround
  exact mul_nonneg hcast (ulp_pos q).le

/-- A number is at least `2 ^ 52` units, and fewer than `2 ^ 53`. -/
theorem units_bounds (h : 0 < q) : 2 ^ 52 ≤ q / ulp q ∧ q / ulp q < 2 ^ 53 := by
  have hlow : (2 : ℚ) ^ Int.log 2 q ≤ q := by
    exact_mod_cast Int.zpow_log_le_self (by norm_num : 1 < 2) h
  have hhigh : q < (2 : ℚ) ^ (Int.log 2 q + 1) := by
    exact_mod_cast Int.lt_zpow_succ_log_self (by norm_num : 1 < 2) q
  have hsplit : (2 : ℚ) ^ Int.log 2 q = 2 ^ 52 * ulp q := by
    rw [ulp, ← zpow_natCast, ← zpow_add₀ (by norm_num)]
    congr 1
    push_cast
    ring
  rw [le_div_iff₀ (ulp_pos q), div_lt_iff₀ (ulp_pos q)]
  refine ⟨hsplit ▸ hlow, ?_⟩
  rw [zpow_add₀ (by norm_num), hsplit] at hhigh
  calc q
    _ < 2 ^ 52 * ulp q * 2 ^ (1 : ℤ) := hhigh
    _ = 2 ^ 53 * ulp q := by ring

/-- Rounding stays between the powers of two on both sides. -/
theorem nearest_bounds (h : 0 < q) :
    (2 : ℚ) ^ Int.log 2 q ≤ nearest q ∧ nearest q ≤ (2 : ℚ) ^ (Int.log 2 q + 1) := by
  obtain ⟨hlow, hhigh⟩ := units_bounds h
  have hlow' : ((2 ^ 52 : ℤ) : ℚ) ≤ q / ulp q := by exact_mod_cast hlow
  have hhigh' : q / ulp q ≤ ((2 ^ 53 : ℤ) : ℚ) := by exact_mod_cast hhigh.le
  have hge := roundEven_mono hlow'
  have hle := roundEven_mono hhigh'
  rw [roundEven_intCast] at hge hle
  have hgeQ : (2 ^ 52 : ℚ) ≤ roundEven (q / ulp q) := by exact_mod_cast hge
  have hleQ : (roundEven (q / ulp q) : ℚ) ≤ 2 ^ 53 := by exact_mod_cast hle
  have hsplit : ∀ n : ℤ, (2 : ℚ) ^ (Int.log 2 q + n) = 2 ^ (52 + n) * ulp q := by
    intro n
    rw [ulp, ← zpow_add₀ (by norm_num)]
    congr 1
    ring
  have hzero := hsplit 0
  have hone := hsplit 1
  norm_num at hzero hone
  rw [nearest, hzero, hone]
  constructor
  · exact mul_le_mul_of_nonneg_right (by norm_num at hgeQ ⊢; exact hgeQ) (ulp_pos q).le
  · exact mul_le_mul_of_nonneg_right (by norm_num at hleQ ⊢; exact hleQ) (ulp_pos q).le

/-- Rounding to doubles is monotone. -/
theorem nearest_mono (hq : 0 ≤ q) (h : q ≤ r) : nearest q ≤ nearest r := by
  rcases hq.lt_or_eq with hpos | rfl
  · rcases (Int.log_mono_right hpos h : Int.log 2 q ≤ Int.log 2 r).lt_or_eq with hlt | heq
    · calc nearest q
        _ ≤ (2 : ℚ) ^ (Int.log 2 q + 1) := (nearest_bounds hpos).2
        _ ≤ (2 : ℚ) ^ Int.log 2 r := zpow_le_zpow_right₀ (by norm_num) (by omega)
        _ ≤ nearest r := (nearest_bounds (hpos.trans_le h)).1
    · have hulp : ulp q = ulp r := by rw [ulp, ulp, heq]
      have hround := roundEven_mono (div_le_div_of_nonneg_right h (ulp_pos r).le)
      have hcast : (roundEven (q / ulp r) : ℚ) ≤ roundEven (r / ulp r) := by exact_mod_cast hround
      rw [nearest, nearest, hulp]
      exact mul_le_mul_of_nonneg_right hcast (ulp_pos r).le
  · rw [nearest_zero]
    exact nearest_nonneg h

/-- A natural number up to `2 ^ 53` is a double. -/
theorem nearest_natCast {n : ℕ} (h : n ≤ 2 ^ 53) : nearest n = n := by
  rcases Nat.eq_zero_or_pos n with rfl | hpos
  · simp
  have hposQ : (0 : ℚ) < n := by exact_mod_cast hpos
  have hlog : Int.log 2 (n : ℚ) = Nat.log 2 n := Int.log_natCast 2 n
  rcases h.lt_or_eq with hlt | rfl
  · have hle : Nat.log 2 n ≤ 52 := by
      have := Nat.log_lt_of_lt_pow hpos.ne' hlt
      omega
    -- The number is a whole number of units.
    have hunits : (n : ℚ) / ulp n = ((n * 2 ^ (52 - Nat.log 2 n) : ℕ) : ℤ) := by
      rw [div_eq_iff (ulp_pos _).ne', ulp, hlog]
      push_cast
      rw [mul_assoc, ← zpow_natCast, ← zpow_add₀ (by norm_num)]
      have hexponent : ((52 - Nat.log 2 n : ℕ) : ℤ) + ((Nat.log 2 n : ℤ) - 52) = 0 := by omega
      rw [hexponent, zpow_zero, mul_one]
    rw [nearest, hunits, roundEven_intCast, ← hunits, div_mul_cancel₀ _ (ulp_pos _).ne']
  · have hvalue : Int.log 2 ((2 ^ 53 : ℕ) : ℚ) = 53 := by
      rw [hlog, Nat.log_pow (by norm_num)]
      rfl
    have hunit : ulp ((2 ^ 53 : ℕ) : ℚ) = 2 := by
      rw [ulp, hvalue]
      norm_num
    have hunits : ((2 ^ 53 : ℕ) : ℚ) / 2 = ((2 ^ 52 : ℤ) : ℚ) := by norm_num
    rw [nearest, hunit, hunits, roundEven_intCast]
    norm_num

/-- The double next to a natural number is a whole number. -/
theorem nearest_natCast_integer (n : ℕ) : ∃ k : ℤ, nearest n = k := by
  by_cases h : n ≤ 2 ^ 53
  · exact ⟨n, by rw [nearest_natCast h]; simp⟩
  · have hlog : Int.log 2 (n : ℚ) = Nat.log 2 n := Int.log_natCast 2 n
    have hge : 53 ≤ Nat.log 2 n := Nat.le_log_of_pow_le (by norm_num) (by omega)
    obtain ⟨k, hk⟩ := Nat.exists_eq_add_of_le (show 52 ≤ Nat.log 2 n by omega)
    refine ⟨roundEven (n / ulp n) * 2 ^ k, ?_⟩
    have hunit : ulp (n : ℚ) = ((2 ^ k : ℤ) : ℚ) := by
      rw [ulp, hlog, hk]
      push_cast
      rw [add_sub_cancel_left, zpow_natCast]
    rw [nearest, hunit]
    push_cast
    ring

end Nearest

/-- A quotient that does not exceed a number is rounded to a double that does not exceed
the one of the number. -/
theorem trueDiv_le {a b n : ℕ} {f : ℚ} (hn : trueDiv n 1 = some f) (h : a ≤ n * b) (hb : 0 < b) :
    ∃ g, trueDiv a b = some g ∧ 0 ≤ g ∧ g ≤ f := by
  unfold trueDiv at hn ⊢
  rw [Nat.cast_one, div_one] at hn
  have hposQ : (0 : ℚ) < b := by exact_mod_cast hb
  have hle : (a : ℚ) / b ≤ n := by
    rw [div_le_iff₀ hposQ]
    exact_mod_cast h
  have hnonneg : (0 : ℚ) ≤ a / b := by positivity
  have hmono := nearest_mono hnonneg hle
  split at hn
  · next hfits =>
    obtain rfl := Option.some.inj hn
    exact ⟨_, if_pos (hmono.trans_lt hfits), nearest_nonneg hnonneg, hmono⟩
  · cases hn

/-- A common factor does not change a quotient. -/
theorem trueDiv_mul_left {k : ℕ} (n : ℕ) (hk : 0 < k) : trueDiv (k * n) k = trueDiv n 1 := by
  have hkQ : (k : ℚ) ≠ 0 := by exact_mod_cast hk.ne'
  have hcancel : ((k * n : ℕ) : ℚ) / k = (n : ℚ) / (1 : ℕ) := by
    rw [Nat.cast_mul, mul_div_cancel_left₀ _ hkQ, Nat.cast_one, div_one]
  unfold trueDiv
  rw [hcancel]

/-- A natural number becomes a double that is a whole number. -/
theorem trueDiv_one_integer {n : ℕ} {f : ℚ} (h : trueDiv n 1 = some f) : ∃ k : ℤ, f = k := by
  unfold trueDiv at h
  rw [Nat.cast_one, div_one] at h
  split at h
  · obtain rfl := Option.some.inj h
    exact nearest_natCast_integer n
  · cases h

end Tracewake.Rounding
