import Mathlib.Data.Finset.Sort
import Mathlib.Order.Interval.Finset.Nat
import Tracewake.JsonText.Number
import Tracewake.Rounding.Doubles
import Tracewake.Sequences.Pairs

/-!
# Evidence for a localization

Of a long run only some steps are sent: both ends, a window around the candidate, and steps
that are spread evenly over the run. The places of the latter are quotients of floating
point numbers. They lie inside the run as long as its length is not rounded up when it
becomes one.
-/

namespace Tracewake.Localization

open JsonText Rounding Sequences

/-- `MAX_EVIDENCE_STEPS`. -/
def maxEvidenceSteps : ℕ := 160

/-- The steps from the first one to `count`. -/
def allSteps (count : ℕ) : List ℕ := (List.range count).map (· + 1)

/-- The steps at both ends and around the candidate. -/
def windows (count candidate : ℕ) : Finset ℕ :=
  Finset.Icc 1 (min count 20) ∪ Finset.Icc (max 1 (count - 19)) count ∪
    Finset.Icc (max 1 (candidate - 50)) (min count (candidate + 50))

/-- The steps that are spread over the run. `none` if a quotient is too large for a double. -/
def spread (count remaining : ℕ) : Option (List ℕ) :=
  (List.range remaining).mapM fun offset =>
    (trueDiv (offset * (count - 1)) (max (remaining - 1) 1)).map fun quotient =>
      1 + (roundEven quotient).toNat

/-- The distance of a step from the ends and from the candidate. -/
def distance (count candidate value : ℕ) : ℤ :=
  min ((value : ℤ) - 1) (min ((count : ℤ) - value) |(value : ℤ) - candidate|)

/-- Keep the steps that are nearest to the ends and to the candidate. -/
def trim (count candidate : ℕ) (ordered : List ℕ) : List ℕ :=
  if maxEvidenceSteps < ordered.length then
    ((ordered.mergeSort fun a b =>
      distance count candidate a < distance count candidate b ||
        (distance count candidate a = distance count candidate b && a ≤ b)).take
          maxEvidenceSteps).mergeSort fun a b => a ≤ b
  else ordered

/-- `_chosen_indices`. -/
def chosenIndices (count candidate : ℕ) : Option (List ℕ) :=
  if count ≤ maxEvidenceSteps then some (allSteps count)
  else
    (spread count (maxEvidenceSteps - (windows count candidate).card)).map fun extra =>
      trim count candidate ((windows count candidate ∪ extra.toFinset).sort (· ≤ ·))

/-- The text of a range. -/
def rangeText (range : ℕ × ℕ) : Text :=
  if range.1 = range.2 then printInt range.1
  else printInt range.1 ++ '-' :: printInt range.2

/-- The loop of `_omitted_ranges`. -/
def rangesFrom (start previous : ℕ) : List ℕ → List (ℕ × ℕ)
  | [] => [(start, previous)]
  | value :: rest =>
    if value = previous + 1 then rangesFrom start value rest
    else (start, previous) :: rangesFrom value value rest

/-- `_omitted_ranges`. -/
def omittedRanges (count : ℕ) (included : List ℕ) : List Text :=
  match (allSteps count).filter fun value => value ∉ included with
  | [] => []
  | first :: rest => (rangesFrom first first rest).map rangeText

/-- What a selection of steps is to be. -/
structure Selection (count candidate : ℕ) (indices : List ℕ) : Prop where
  increasing : indices.Pairwise (· < ·)
  inside : ∀ i ∈ indices, 1 ≤ i ∧ i ≤ count
  bounded : indices.length ≤ maxEvidenceSteps
  whole : count ≤ maxEvidenceSteps → indices = allSteps count
  window : ∀ i, 1 ≤ i → i ≤ count → candidate ≤ i + 50 → i ≤ candidate + 50 → i ∈ indices
  head : ∀ i, 1 ≤ i → i ≤ count → i ≤ 20 → i ∈ indices
  tail : ∀ i, 1 ≤ i → i ≤ count → count < i + 20 → i ∈ indices

/-- The texts are increasing ranges with gaps between them, and they hold exactly the steps
that are left out. -/
def OmitsExactly (count : ℕ) (included : List ℕ) (texts : List Text) : Prop :=
  ∃ ranges : List (ℕ × ℕ), texts = ranges.map rangeText ∧ (∀ range ∈ ranges, range.1 ≤ range.2) ∧
    ranges.Pairwise (fun range other => range.2 + 1 < other.1) ∧
    ∀ i, (∃ range ∈ ranges, range.1 ≤ i ∧ i ≤ range.2) ↔ (1 ≤ i ∧ i ≤ count) ∧ i ∉ included

section Steps

/-- The steps are numbered from 1. -/
theorem mem_allSteps {count i : ℕ} : i ∈ allSteps count ↔ 1 ≤ i ∧ i ≤ count := by
  simp only [allSteps, List.mem_map, List.mem_range]
  constructor
  · rintro ⟨j, hj, rfl⟩
    omega
  · intro h
    exact ⟨i - 1, by omega, by omega⟩

/-- The steps are listed in their order. -/
theorem allSteps_increasing (count : ℕ) : (allSteps count).Pairwise (· < ·) := by
  refine List.Pairwise.map _ (fun a b h => ?_) List.pairwise_lt_range
  omega

end Steps

section Ranges

variable {start previous : ℕ} {rest : List ℕ}

/-- A range begins at the first step or later, and it does not end before it begins. -/
theorem rangesFrom_ordered {range : ℕ × ℕ} (hstart : start ≤ previous)
    (hrest : (previous :: rest).Pairwise (· < ·)) (h : range ∈ rangesFrom start previous rest) :
    start ≤ range.1 ∧ range.1 ≤ range.2 := by
  induction rest generalizing start previous with
  | nil =>
    rw [List.mem_singleton.mp h]
    exact ⟨le_rfl, hstart⟩
  | cons value rest ih =>
    obtain ⟨hbefore, hsorted⟩ := List.pairwise_cons.mp hrest
    have hvalue : previous < value := hbefore value List.mem_cons_self
    unfold rangesFrom at h
    split at h
    · exact ih (by omega) hsorted h
    · rcases List.mem_cons.mp h with rfl | hmem
      · exact ⟨le_rfl, hstart⟩
      · obtain ⟨hfirst, horder⟩ := ih le_rfl hsorted hmem
        exact ⟨by omega, horder⟩

/-- Between two ranges a step is missing. -/
theorem rangesFrom_gaps (hrest : (previous :: rest).Pairwise (· < ·)) :
    (rangesFrom start previous rest).Pairwise fun range other => range.2 + 1 < other.1 := by
  induction rest generalizing start previous with
  | nil => exact List.pairwise_singleton _ _
  | cons value rest ih =>
    obtain ⟨hbefore, hsorted⟩ := List.pairwise_cons.mp hrest
    have hvalue : previous < value := hbefore value List.mem_cons_self
    unfold rangesFrom
    split
    · exact ih hsorted
    · rw [List.pairwise_cons]
      constructor
      · intro other hother
        have hfirst := (rangesFrom_ordered le_rfl hsorted hother).1
        show previous + 1 < other.1
        omega
      · exact ih hsorted

/-- The ranges hold what was seen of the first one and what is still to come. -/
theorem mem_rangesFrom (hstart : start ≤ previous) (hrest : (previous :: rest).Pairwise (· < ·))
    (i : ℕ) :
    (∃ range ∈ rangesFrom start previous rest, range.1 ≤ i ∧ i ≤ range.2) ↔
      start ≤ i ∧ i ≤ previous ∨ i ∈ rest := by
  induction rest generalizing start previous with
  | nil => simp [rangesFrom]
  | cons value rest ih =>
    obtain ⟨hbefore, hsorted⟩ := List.pairwise_cons.mp hrest
    have hvalue : previous < value := hbefore value List.mem_cons_self
    unfold rangesFrom
    split
    · next hnext =>
      rw [ih (by omega) hsorted, List.mem_cons]
      constructor
      · rintro (⟨hlow, hhigh⟩ | hmem)
        · by_cases hi : i = value
          · exact Or.inr (Or.inl hi)
          · exact Or.inl ⟨hlow, by omega⟩
        · exact Or.inr (Or.inr hmem)
      · rintro (⟨hlow, hhigh⟩ | rfl | hmem)
        · exact Or.inl ⟨hlow, by omega⟩
        · exact Or.inl ⟨by omega, le_rfl⟩
        · exact Or.inr hmem
    · rw [List.exists_mem_cons_iff, ih le_rfl hsorted, List.mem_cons, ← le_antisymm_iff,
        @eq_comm _ value]

/-- The texts of the ranges name what is left out. -/
theorem omittedRanges_exact (count : ℕ) (included : List ℕ) :
    OmitsExactly count included (omittedRanges count included) := by
  have hsorted := (allSteps_increasing count).filter fun value => decide (value ∉ included)
  have hmem (i : ℕ) : (i ∈ (allSteps count).filter fun value => decide (value ∉ included)) ↔
      (1 ≤ i ∧ i ≤ count) ∧ i ∉ included := by
    simp [mem_allSteps]
  unfold omittedRanges
  split
  · next hnone =>
    rw [hnone] at hmem
    exact ⟨[], rfl, by simp, List.Pairwise.nil, fun i => by simpa using hmem i⟩
  · next first rest hsome =>
    rw [hsome] at hmem hsorted
    refine ⟨rangesFrom first first rest, rfl, ?_, rangesFrom_gaps hsorted, ?_⟩
    · intro range hrange
      exact (rangesFrom_ordered le_rfl hsorted hrange).2
    · intro i
      rw [mem_rangesFrom le_rfl hsorted, ← hmem, List.mem_cons, ← le_antisymm_iff, eq_comm]

end Ranges

section Chosen

variable {count candidate : ℕ}

/-- The windows leave room for steps in between. -/
theorem windows_card (count candidate : ℕ) : (windows count candidate).card ≤ 141 := by
  have hhead : (Finset.Icc 1 (min count 20)).card ≤ 20 := by
    rw [Nat.card_Icc]
    omega
  have htail : (Finset.Icc (max 1 (count - 19)) count).card ≤ 20 := by
    rw [Nat.card_Icc]
    omega
  have hwindow :
      (Finset.Icc (max 1 (candidate - 50)) (min count (candidate + 50))).card ≤ 101 := by
    rw [Nat.card_Icc]
    omega
  calc (windows count candidate).card
    _ ≤ _ := Finset.card_union_le _ _
    _ ≤ (20 + 20) + 101 :=
      Nat.add_le_add ((Finset.card_union_le _ _).trans (Nat.add_le_add hhead htail)) hwindow

/-- A window has steps of the run only. -/
theorem windows_inside {i : ℕ} (h : i ∈ windows count candidate) : 1 ≤ i ∧ i ≤ count := by
  simp only [windows, Finset.mem_union, Finset.mem_Icc] at h
  omega

/-- Each of the steps that are spread over the run comes from a quotient. -/
theorem spread_forall {remaining : ℕ} {extra : List ℕ} (h : spread count remaining = some extra) :
    List.Forall₂ (fun offset i => ∃ quotient,
      trueDiv (offset * (count - 1)) (max (remaining - 1) 1) = some quotient ∧
        i = 1 + (roundEven quotient).toNat) (List.range remaining) extra := by
  refine (forall₂_of_mapM h).imp fun offset i hi => ?_
  obtain ⟨quotient, hquotient, rfl⟩ := Option.map_eq_some_iff.mp hi
  exact ⟨quotient, hquotient, rfl⟩

/-- Without a selection that is too long nothing is trimmed. -/
theorem trim_of_le {ordered : List ℕ} (h : ordered.length ≤ maxEvidenceSteps) :
    trim count candidate ordered = ordered := if_neg (by omega)

/-- A long run keeps the windows and the steps that are spread over it. -/
theorem chosenIndices_long {indices : List ℕ} (hlong : maxEvidenceSteps < count)
    (h : chosenIndices count candidate = some indices) :
    ∃ extra, spread count (maxEvidenceSteps - (windows count candidate).card) = some extra ∧
      indices = (windows count candidate ∪ extra.toFinset).sort (· ≤ ·) ∧
      indices.length ≤ maxEvidenceSteps := by
  rw [chosenIndices, if_neg (by omega)] at h
  obtain ⟨extra, hextra, rfl⟩ := Option.map_eq_some_iff.mp h
  have hcard := windows_card count candidate
  have hspread : extra.toFinset.card ≤ maxEvidenceSteps - (windows count candidate).card :=
    calc extra.toFinset.card
      _ ≤ extra.length := List.toFinset_card_le extra
      _ = _ := by rw [← (spread_forall hextra).length_eq, List.length_range]
  have hlength : ((windows count candidate ∪ extra.toFinset).sort (· ≤ ·)).length ≤
      maxEvidenceSteps := by
    rw [Finset.length_sort]
    have := Finset.card_union_le (windows count candidate) extra.toFinset
    have : maxEvidenceSteps = 160 := rfl
    omega
  exact ⟨extra, hextra, trim_of_le hlength, by rw [trim_of_le hlength]; exact hlength⟩

/-- The last of the steps that are spread over a long run is the quotient of the whole run. -/
theorem last_index_mem {indices : List ℕ} (hlong : maxEvidenceSteps < count)
    (h : chosenIndices count candidate = some indices) :
    ∃ f, trueDiv (count - 1) 1 = some f ∧ 1 + (roundEven f).toNat ∈ indices := by
  obtain ⟨extra, hextra, rfl, -⟩ := chosenIndices_long hlong h
  have hcard := windows_card count candidate
  have hmax : maxEvidenceSteps = 160 := rfl
  have hforall := spread_forall hextra
  set remaining := maxEvidenceSteps - (windows count candidate).card with hremaining
  obtain ⟨i, hi, hat⟩ := exists_of_forall₂ hforall (List.mem_range.mpr (by omega :
    remaining - 1 < remaining))
  obtain ⟨quotient, hquotient, rfl⟩ := hat
  have hwhole : trueDiv ((remaining - 1) * (count - 1)) (max (remaining - 1) 1) =
      trueDiv (count - 1) 1 := by
    rw [Nat.max_eq_left (by omega)]
    exact trueDiv_mul_left _ (by omega)
  refine ⟨quotient, hwhole ▸ hquotient, ?_⟩
  rw [Finset.mem_sort, Finset.mem_union, List.mem_toFinset]
  exact Or.inr hi

/-- As long as the length of the run is not rounded up, the steps that are spread over it lie
inside of it. -/
theorem spread_inside {f : ℚ} (remaining : ℕ) (hf : trueDiv (count - 1) 1 = some f)
    (hle : f ≤ (count - 1 : ℕ)) (hcount : 1 ≤ count) :
    ∃ extra, spread count remaining = some extra ∧ ∀ i ∈ extra, 1 ≤ i ∧ i ≤ count := by
  have hquotient : ∀ offset ∈ List.range remaining, ∃ quotient,
      trueDiv (offset * (count - 1)) (max (remaining - 1) 1) = some quotient ∧
        0 ≤ quotient ∧ quotient ≤ f := by
    intro offset hoffset
    have hlast : offset ≤ max (remaining - 1) 1 := by
      have := List.mem_range.mp hoffset
      omega
    apply trueDiv_le hf _ (by omega)
    rw [mul_comm]
    exact Nat.mul_le_mul_left _ hlast
  obtain ⟨extra, hextra⟩ := mapM_some_of_forall (f := fun offset =>
    (trueDiv (offset * (count - 1)) (max (remaining - 1) 1)).map fun quotient =>
      1 + (roundEven quotient).toNat) fun offset hoffset => by
    obtain ⟨quotient, hquotient, -⟩ := hquotient offset hoffset
    exact ⟨_, by rw [hquotient]; rfl⟩
  refine ⟨extra, hextra, fun i hi => ?_⟩
  obtain ⟨offset, hoffset, quotient, hat, rfl⟩ := exists_of_mem_forall₂ (spread_forall hextra) hi
  obtain ⟨other, hother, hnonneg, hbound⟩ := hquotient offset hoffset
  obtain rfl := Option.some.inj (hat.symm.trans hother)
  have hround : roundEven quotient ≤ ((count - 1 : ℕ) : ℤ) := by
    rw [← roundEven_intCast ((count - 1 : ℕ) : ℤ)]
    apply roundEven_mono
    exact (hbound.trans hle).trans (by simp)
  omega

/-- A window lies in the selection, whatever is spread over the run. -/
theorem mem_chosen_of_window {indices : List ℕ} {i : ℕ}
    (h : chosenIndices count candidate = some indices) (hi : i ∈ windows count candidate) :
    i ∈ indices := by
  by_cases hlong : maxEvidenceSteps < count
  · obtain ⟨extra, -, rfl, -⟩ := chosenIndices_long hlong h
    rw [Finset.mem_sort, Finset.mem_union]
    exact Or.inl hi
  · rw [chosenIndices, if_pos (by omega)] at h
    rw [← Option.some.inj h, mem_allSteps]
    exact windows_inside hi

/-- A selection that lies inside of the run is the one that is meant. -/
theorem selection_of_inside {indices : List ℕ} (h : chosenIndices count candidate = some indices)
    (hinside : ∀ i ∈ indices, 1 ≤ i ∧ i ≤ count) : Selection count candidate indices := by
  have hwindow {i : ℕ} (hi : i ∈ windows count candidate) : i ∈ indices :=
    mem_chosen_of_window h hi
  simp only [windows, Finset.mem_union, Finset.mem_Icc] at hwindow
  have hshape : indices.Pairwise (· < ·) ∧ indices.length ≤ maxEvidenceSteps ∧
      (count ≤ maxEvidenceSteps → indices = allSteps count) := by
    by_cases hlong : maxEvidenceSteps < count
    · obtain ⟨extra, -, hindices, hlength⟩ := chosenIndices_long hlong h
      refine ⟨?_, hlength, by omega⟩
      rw [hindices]
      exact (Finset.sortedLT_sort (windows count candidate ∪ extra.toFinset)).pairwise
    · rw [chosenIndices, if_pos (by omega)] at h
      obtain rfl := Option.some.inj h
      refine ⟨allSteps_increasing count, ?_, fun _ => rfl⟩
      rw [allSteps, List.length_map, List.length_range]
      omega
  exact {
    increasing := hshape.1
    inside := hinside
    bounded := hshape.2.1
    whole := hshape.2.2
    window := fun i _ _ _ _ => hwindow (by omega)
    head := fun i _ _ _ => hwindow (by omega)
    tail := fun i _ _ _ => hwindow (by omega) }

/-- A double next to a run's length that does not exceed it, or no need for one. -/
theorem chosenIndices_inside {f : ℚ} (hf : trueDiv (count - 1) 1 = some f)
    (hle : f ≤ (count - 1 : ℕ)) (hcount : 1 ≤ count) :
    ∃ indices, chosenIndices count candidate = some indices ∧
      ∀ i ∈ indices, 1 ≤ i ∧ i ≤ count := by
  by_cases hlong : maxEvidenceSteps < count
  · obtain ⟨extra, hextra, hinside⟩ :=
      spread_inside (maxEvidenceSteps - (windows count candidate).card) hf hle hcount
    have hsome : ∃ indices, chosenIndices count candidate = some indices := by
      rw [chosenIndices, if_neg (by omega), hextra]
      exact ⟨_, rfl⟩
    obtain ⟨indices, hindices⟩ := hsome
    refine ⟨indices, hindices, fun i hi => ?_⟩
    obtain ⟨other, hother, rfl, -⟩ := chosenIndices_long hlong hindices
    obtain rfl := Option.some.inj (hextra.symm.trans hother)
    rw [Finset.mem_sort, Finset.mem_union, List.mem_toFinset] at hi
    exact hi.elim windows_inside (hinside i)
  · refine ⟨allSteps count, by rw [chosenIndices, if_pos (by omega)], fun i hi => ?_⟩
    exact mem_allSteps.mp hi

/-- A run of at most `2 ^ 53 + 1` steps is as long as a double. -/
theorem length_exact (h : count ≤ 2 ^ 53 + 1) :
    trueDiv (count - 1) 1 = some ((count - 1 : ℕ) : ℚ) := by
  have hnear : nearest (((count - 1 : ℕ) : ℚ) / (1 : ℕ)) = ((count - 1 : ℕ) : ℚ) := by
    rw [Nat.cast_one, div_one, nearest_natCast (by omega)]
  have hsmall : ((count - 1 : ℕ) : ℚ) < 2 ^ 1024 := by
    have hle : count - 1 ≤ 2 ^ 53 := by omega
    calc ((count - 1 : ℕ) : ℚ)
      _ ≤ ((2 ^ 53 : ℕ) : ℚ) := by exact_mod_cast hle
      _ = 2 ^ 53 := by push_cast; rfl
      _ < 2 ^ 1024 := pow_lt_pow_right₀ (by norm_num) (by norm_num)
  rw [trueDiv, hnear, if_pos hsmall]

/-- The evidence is selected inside of the run, and what it leaves out is told, exactly if the
run is short or its length is not rounded up when it becomes a double. -/
theorem evidence_selected_iff (hfirst : 1 ≤ candidate) (hlast : candidate ≤ count) :
    (∃ indices, chosenIndices count candidate = some indices ∧
      Selection count candidate indices ∧
        OmitsExactly count indices (omittedRanges count indices)) ↔
      (count ≤ 160 ∨ ∃ f, trueDiv (count - 1) 1 = some f ∧ f ≤ (count - 1 : ℕ)) := by
  constructor
  · rintro ⟨indices, hindices, hselection, -⟩
    by_cases hlong : maxEvidenceSteps < count
    · obtain ⟨f, hf, hmem⟩ := last_index_mem hlong hindices
      refine Or.inr ⟨f, hf, ?_⟩
      have hround : (roundEven f).toNat ≤ count - 1 := by
        have := (hselection.inside _ hmem).2
        omega
      obtain ⟨k, hk⟩ := trueDiv_one_integer hf
      rw [hk, roundEven_intCast] at hround
      rw [hk]
      have : k ≤ ((count - 1 : ℕ) : ℤ) := by omega
      exact_mod_cast this
    · exact Or.inl (by rw [maxEvidenceSteps] at hlong; omega)
  · intro h
    have hsome : ∃ indices, chosenIndices count candidate = some indices ∧
        ∀ i ∈ indices, 1 ≤ i ∧ i ≤ count := by
      rcases h with hshort | ⟨f, hf, hle⟩
      · exact chosenIndices_inside (length_exact (by omega)) le_rfl (by omega)
      · exact chosenIndices_inside hf hle (by omega)
    obtain ⟨indices, hindices, hinside⟩ := hsome
    exact ⟨indices, hindices, selection_of_inside hindices hinside,
      omittedRanges_exact count indices⟩

/-- The evidence is selected inside of the run, and what it leaves out is told. A list has a
pointer of eight bytes for each step, so no run in memory is longer than this. -/
theorem evidence_selected (hfirst : 1 ≤ candidate) (hlast : candidate ≤ count)
    (hcount : count ≤ 2 ^ 53 + 1) :
    ∃ indices, chosenIndices count candidate = some indices ∧
      Selection count candidate indices ∧
        OmitsExactly count indices (omittedRanges count indices) := by
  refine (evidence_selected_iff hfirst hlast).mpr (.inr ⟨_, length_exact hcount, ?_⟩)
  exact le_rfl

/-- The selection of a run of a thousand steps. -/
theorem evidence_selected_thousand :
    (1 ≤ 500 ∧ 500 ≤ 1000) ∧ ∃ indices, chosenIndices 1000 500 = some indices ∧
      Selection 1000 500 indices ∧ OmitsExactly 1000 indices (omittedRanges 1000 indices) :=
  ⟨by decide, evidence_selected (by decide) (by decide) (by norm_num)⟩

end Chosen

end Tracewake.Localization
