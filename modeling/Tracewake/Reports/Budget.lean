import Tracewake.JsonText.Weight
import Tracewake.Localization.Totality
import Tracewake.Reports.Payload

/-!
# The budget of a report

The size of the data grows with the limit to which its texts are clipped, so the search
finds the largest limit at which the serialized data is within the budget. The page embeds
longer data: it replaces every angle bracket by six characters.
-/

namespace Tracewake.Reports

open JsonText Recording Tracewake.Alignment

variable {F D : Type} [Python F]

/-! ## Bytes -/

/-- The bytes of a character. -/
def byteWeight (c : Char) : ℕ := (Utf8.encodeChar c).length

/-- The bytes of a character as the page embeds it. -/
def embeddedWeight (c : Char) : ℕ := if c = '<' then 6 else byteWeight c

section Bytes

/-- An ASCII character is one byte. -/
theorem byteWeight_ascii {c : Char} (h : c.toNat < 0x80) : byteWeight c = 1 := by
  rw [byteWeight, Utf8.encodeChar, Utf8.codeBytes, if_pos h]
  rfl

/-- Measured in bytes every character of the JSON grammar weighs 1. -/
theorem byteWeight_plain : Plain byteWeight where
  punctuation c hc := by
    apply byteWeight_ascii
    exact Json.forall_of_all (Q := fun c => c.toNat < 0x80) (by decide) c hc
  digit c hc := by
    apply byteWeight_ascii
    have hrange := Char.isDigit_iff_toNat.mp hc
    have hnine : '9'.toNat = 57 := rfl
    omega
  pos c := Utf8.encodeChar_length_pos c

/-- Measured as embedded every character of the JSON grammar weighs 1. -/
theorem embeddedWeight_plain : Plain embeddedWeight where
  punctuation c hc := by
    rw [embeddedWeight, if_neg, byteWeight_plain.punctuation c hc]
    rintro rfl
    simp [Json.punctuation] at hc
  digit c hc := by
    rw [embeddedWeight, if_neg, byteWeight_plain.digit c hc]
    rintro rfl
    simp at hc
  pos c := by
    unfold embeddedWeight
    split
    · omega
    · exact byteWeight_plain.pos c

/-- The bytes of a text are its weight. -/
theorem length_encode (text : Text) : (Utf8.encode text).length = weigh byteWeight text := by
  rw [Utf8.encode, List.length_flatMap]
  rfl

/-- The bytes of a text with `<` escaped are its weight as embedded. -/
theorem length_encode_escaped (text : Text) :
    (Utf8.encode (text.flatMap escapeAngle)).length = weigh embeddedWeight text := by
  induction text with
  | nil => rfl
  | cons c text ih =>
    rw [List.flatMap_cons, Utf8.encode_append, List.length_append, ih, weigh_cons]
    congr 1
    rw [embeddedWeight, escapeAngle]
    split
    · decide
    · simp [Utf8.encode, byteWeight]

/-- Every angle bracket takes five bytes more in the page. -/
theorem weigh_embedded (text : Text) :
    weigh embeddedWeight text = weigh byteWeight text + 5 * text.count '<' := by
  induction text with
  | nil => rfl
  | cons c text ih =>
    rw [weigh_cons, weigh_cons, ih, embeddedWeight]
    split
    · next h =>
      subst h
      have hone : byteWeight '<' = 1 := byteWeight_ascii (by decide)
      rw [List.count_cons_self, hone]
      omega
    · next h =>
      rw [List.count_cons_of_ne (Ne.symm (Ne.symm h))]
      omega

end Bytes

/-! ## Sizes of the payload -/

section Sizes

variable {weight : Char → ℕ}

/-- The size of data, where characters count with their weight. -/
abbrev dataSize (weight : Char → ℕ) (data : Data F) : ℕ := data.size weight reportStyle

/-- A natural number has the size of its digits. -/
theorem size_natural (h : Plain weight) (n : ℕ) :
    dataSize weight (natural n : Data F) = digitCount n := by
  have hdigits : ∀ c ∈ Nat.toDigits 10 n, weight c = 1 := fun c hc =>
    h.digit c (toDigits_isDigit hc)
  exact weigh_eq_length hdigits

/-- What a character is written as. -/
theorem escape_pos (h : Plain weight) (c : Char) :
    1 ≤ weigh weight ((reportStyle : Style (Figure F)).escape c) := by
  refine le_trans ?_ (h.length_le _)
  rw [Nat.one_le_iff_ne_zero, Ne, List.length_eq_zero_iff]
  change escapeChar _ c ≠ []
  unfold escapeChar
  split <;> try simp
  split
  · simp
  · unfold unicodeEscape
    split <;> simp [hexEscape]

/-- Keeping one more character makes a text longer. -/
theorem size_take_succ (h : Plain weight) {text : Text} {limit : ℕ} (hlt : limit < text.length) :
    weigh weight ((text.take limit).flatMap (reportStyle : Style (Figure F)).escape) + 1 ≤
      weigh weight ((text.take (limit + 1)).flatMap (reportStyle : Style (Figure F)).escape) := by
  have hpos := escape_pos (F := F) h text[limit]
  rw [List.take_add_one, List.getElem?_eq_getElem hlt, Option.toList_some, List.flatMap_append,
    weigh_append, List.flatMap_singleton]
  omega

/-- What a block adds to the size by its text and its mark. -/
theorem size_block (h : Plain weight) (info : BlockMeta) (text : Text) (clipped : Bool) :
    dataSize weight (Block.data ⟨info, text, clipped⟩ : Data F) =
      dataSize weight (Block.data ⟨info, [], true⟩ : Data F) +
        weigh weight (text.flatMap (reportStyle : Style (Figure F)).escape) +
          if clipped then 0 else 1 := by
  simp only [dataSize, Block.data, object, List.map_cons, List.map_nil]
  rw [Json.size_obj h (by simp), Json.size_obj h (by simp)]
  simp only [List.map_cons, List.map_nil, List.sum_cons, List.sum_nil, Json.fieldSize,
    Json.size_str h, Json.size_bool h, List.flatMap_nil, weigh_nil, if_true]
  split <;> omega

/-- The size of the truncation record grows with the digits of its three numbers. -/
theorem size_truncation (h : Plain weight) (clipped dropped limit : ℕ) :
    dataSize weight (Truncation.data ⟨clipped, dropped, some limit⟩ : Data F) + 3 =
      dataSize weight (Truncation.data ⟨0, 0, some 0⟩ : Data F) + digitCount clipped +
        digitCount dropped + digitCount limit := by
  have hzero : digitCount 0 = 1 := rfl
  simp only [dataSize, Truncation.data, object, List.map_cons, List.map_nil, orNull]
  rw [Json.size_obj h (by simp), Json.size_obj h (by simp)]
  simp only [List.map_cons, List.map_nil, List.sum_cons, List.sum_nil, Json.fieldSize,
    size_natural h, hzero]
  omega

/-! ## One more character -/

/-- The size of blocks with the marks between them. -/
def blocksSize (F : Type) [Python F] (weight : Char → ℕ) (blocks : List Block) : ℕ :=
  (blocks.map fun block => dataSize weight (block.data : Data F) + 1).sum

/-- A block at the next limit: it gains a character, and a longer mark if it is now whole. -/
theorem clipBlocks_succ (h : Plain weight) (limit : ℕ) (entries : List (BlockMeta × Text)) :
    let small := clipBlocks (some limit) entries
    let large := clipBlocks (some (limit + 1)) entries
    small.1.length = large.1.length ∧ large.2.1 ≤ small.2.1 ∧ small.2.2 = large.2.2 + small.2.1 ∧
      blocksSize F weight small.1 + 2 * small.2.1 ≤ blocksSize F weight large.1 + large.2.1 := by
  induction entries with
  | nil => simp [clipBlocks]
  | cons entry rest ih =>
    obtain ⟨info, text⟩ := entry
    simp only [clipBlocks]
    generalize clipBlocks (some limit) rest = small at ih ⊢
    generalize clipBlocks (some (limit + 1)) rest = large at ih ⊢
    obtain ⟨blocks, clipped, dropped⟩ := small
    obtain ⟨blocks', clipped', dropped'⟩ := large
    obtain ⟨hlength, hclipped, hdropped, hsize⟩ := ih
    simp only at hlength hclipped hdropped hsize ⊢
    by_cases hshort : text.length ≤ limit
    · rw [if_pos hshort, if_pos (by omega)]
      simp only [List.length_cons, blocksSize, List.map_cons, List.sum_cons] at hsize ⊢
      refine ⟨by omega, hclipped, hdropped, by omega⟩
    · rw [if_neg hshort]
      have hgain := size_take_succ (F := F) h (Nat.lt_of_not_le hshort)
      by_cases hlast : text.length ≤ limit + 1
      · rw [if_pos hlast]
        rw [List.take_of_length_le hlast] at hgain
        simp only [List.length_cons, blocksSize, List.map_cons, List.sum_cons,
          size_block h info text, size_block h info (text.take limit)] at hsize ⊢
        refine ⟨by omega, by omega, by omega, ?_⟩
        simp only [if_true, Bool.false_eq_true, if_false]
        omega
      · rw [if_neg hlast]
        simp only [List.length_cons, blocksSize, List.map_cons, List.sum_cons,
          size_block h info (text.take (limit + 1)), size_block h info (text.take limit)] at hsize ⊢
        refine ⟨by omega, by omega, by omega, ?_⟩
        simp only [if_true]
        omega

/-- What holds of the sizes of two lists of blocks holds of the arrays. -/
theorem size_array_add_le (h : Plain weight) {small large : List Block} {m n : ℕ}
    (hlength : small.length = large.length)
    (hsize : blocksSize F weight small + m ≤ blocksSize F weight large + n) :
    dataSize weight (.arr (small.map Block.data) : Data F) + m ≤
      dataSize weight (.arr (large.map Block.data) : Data F) + n := by
  by_cases hempty : small = []
  · have hempty' : large = [] := List.length_eq_zero_iff.mp (by simpa [hempty] using hlength.symm)
    subst hempty hempty'
    simpa [blocksSize] using hsize
  · have hempty' : large ≠ [] := by
      rintro rfl
      exact hempty (List.length_eq_zero_iff.mp hlength)
    rw [dataSize, dataSize, Json.size_arr h (by simpa using hempty),
      Json.size_arr h (by simpa using hempty'), List.map_map, List.map_map]
    change blocksSize F weight small + 1 + m ≤ blocksSize F weight large + 1 + n
    omega

/-- The size of the payload at a limit. -/
def draftSize (weight : Char → ℕ) (draft : Draft F) (limit : Option ℕ) : ℕ :=
  dataSize weight (draft.apply limit).data

/-- The payload is as long as its fields, its blocks and its counts. -/
theorem draftSize_eq (h : Plain weight) (draft : Draft F) (limit : Option ℕ) :
    draftSize weight draft limit =
      ((draft.fields.map fun field => (field.1.toList, field.2)).map fun field =>
          Json.fieldSize weight reportStyle field + 1).sum +
        Json.fieldSize weight reportStyle ("blocks".toList,
          .arr ((draft.apply limit).blocks.map (Block.data : Block → Data F))) +
        Json.fieldSize weight reportStyle ("truncation".toList,
          ((draft.apply limit).truncation.data : Data F)) + 3 := by
  rw [draftSize, dataSize, Payload.data, object, Json.size_obj h (by simp)]
  simp only [List.map_append, List.map_cons, List.map_nil, List.sum_append, List.sum_cons,
    List.sum_nil, Draft.apply]
  omega

/-- The payload grows with the limit: what the counts and marks lose is less than what the
texts gain. -/
theorem draftSize_le_succ (h : Plain weight) (draft : Draft F) (limit : ℕ) :
    draftSize weight draft (some limit) ≤ draftSize weight draft (some (limit + 1)) := by
  obtain ⟨hlength, hclipped, hdropped, hsize⟩ :=
    clipBlocks_succ (F := F) h limit (draft.blocks.metas.zip draft.blocks.texts)
  rw [draftSize_eq h, draftSize_eq h]
  simp only [Draft.apply, Json.fieldSize]
  generalize clipBlocks (some limit) (draft.blocks.metas.zip draft.blocks.texts) = small at *
  generalize clipBlocks (some (limit + 1)) (draft.blocks.metas.zip draft.blocks.texts) = large at *
  obtain ⟨blocks, clipped, dropped⟩ := small
  obtain ⟨blocks', clipped', dropped'⟩ := large
  simp only at hlength hclipped hdropped hsize ⊢
  have htruncation := size_truncation (F := F) h clipped dropped limit
  have htruncation' := size_truncation (F := F) h clipped' dropped' (limit + 1)
  have hcount : digitCount clipped ≤ digitCount clipped' + (clipped - clipped') := by
    have hadd := digitCount_add_le clipped' (clipped - clipped')
    rwa [Nat.add_sub_cancel' hclipped] at hadd
  have hchars : digitCount dropped ≤ digitCount dropped' + clipped := by
    rw [hdropped]
    exact digitCount_add_le dropped' clipped
  have hlimit := digitCount_mono (Nat.le_add_right limit 1)
  have harray := size_array_add_le (F := F) h hlength hsize
  simp only [dataSize] at htruncation htruncation' harray
  omega

/-- A larger limit never makes the draft smaller: what it adds to the blocks outweighs what
it saves in the record. -/
theorem draftSize_mono (h : Plain weight) (draft : Draft F) :
    Monotone fun limit : ℕ => draftSize weight draft (some limit) :=
  monotone_nat_of_le_succ (draftSize_le_succ h draft)

end Sizes

/-! ## The search -/

section Search

variable {draft : Draft F} {budget : ℤ}

/-- The size of the data in the page. -/
def Draft.embeddedSize (draft : Draft F) (limit : Option ℕ) : ℕ :=
  (embedded (draft.apply limit).data).length

/-- The angle brackets in the serialized data. -/
def Draft.angles (draft : Draft F) (limit : Option ℕ) : ℕ :=
  (serialize (draft.apply limit).data).count '<'

/-- What is measured is the size in bytes. -/
theorem measure_eq (draft : Draft F) (limit : Option ℕ) :
    draft.measure limit = draftSize byteWeight draft limit :=
  length_encode _

/-- What is embedded is the size with `<` escaped. -/
theorem embeddedSize_eq_draftSize (draft : Draft F) (limit : Option ℕ) :
    draft.embeddedSize limit = draftSize embeddedWeight draft limit :=
  length_encode_escaped _

/-- The page needs five bytes more than what is measured for every angle bracket. -/
theorem embeddedSize_eq (draft : Draft F) (limit : Option ℕ) :
    draft.embeddedSize limit = draft.measure limit + 5 * draft.angles limit := by
  rw [embeddedSize_eq_draftSize, measure_eq]
  exact weigh_embedded _

/-- What is measured grows with the limit. -/
theorem measure_mono (draft : Draft F) : Monotone fun limit : ℕ => draft.measure (some limit) := by
  simp only [measure_eq]
  exact draftSize_mono byteWeight_plain draft

/-- What is embedded grows with the limit. -/
theorem embeddedSize_mono (draft : Draft F) :
    Monotone fun limit : ℕ => draft.embeddedSize (some limit) := by
  simp only [embeddedSize_eq_draftSize]
  exact draftSize_mono embeddedWeight_plain draft

/-- What is measured is within the budget at every limit below one at which it is. -/
theorem fits_of_le (draft : Draft F) (budget : ℤ) (k l : ℕ) (hle : k ≤ l)
    (hl : decide ((draft.measure (some l) : ℤ) ≤ budget) = true) :
    decide ((draft.measure (some k) : ℤ) ≤ budget) = true := by
  have hmono := measure_mono draft hle
  simp only [decide_eq_true_eq] at hl hmono ⊢
  omega

/-- Nothing is clipped when all data is measured to be within the budget. -/
theorem fitBudget_whole (h : draft.measure none ≤ budget) :
    fitBudget draft budget = .ok (draft.apply none) := if_pos h

/-- The search ends at the largest limit at which the measured data is within the budget. -/
theorem fitBudget_clipped (hwhole : budget < draft.measure none)
    (hzero : draft.measure (some 0) ≤ budget) :
    ∃ best, IsGreatest {l : ℕ | l ≤ draft.longest ∧ (draft.measure (some l) : ℤ) ≤ budget} best ∧
      fitBudget draft budget = .ok (draft.apply (some best)) := by
  have hgreatest := Budgets.bisect_isGreatest draft.longest (fits_of_le draft budget)
    (decide_eq_true hzero)
  simp only [decide_eq_true_eq] at hgreatest
  refine ⟨_, hgreatest, ?_⟩
  rw [fitBudget, if_neg (by omega)]
  exact if_neg (not_lt.mpr hgreatest.1.2)

/-- The data is refused when it is too long even without any text. -/
theorem fitBudget_refused (hwhole : budget < draft.measure none)
    (hzero : budget < draft.measure (some 0)) :
    fitBudget draft budget = .error (.cannotFit budget) := by
  have hnone := Budgets.bisect_eq_zero draft.longest (fits_of_le draft budget)
    (decide_eq_false (not_le.mpr hzero))
  rw [fitBudget, if_neg (by omega), hnone]
  exact if_pos hzero

/-- No larger limit would do for the data in the page. -/
def IsBest (draft : Draft F) (budget : ℤ) : Option ℕ → Prop
  | none => draft.embeddedSize none ≤ budget
  | some limit => budget < draft.embeddedSize none ∧
      IsGreatest {l : ℕ | l ≤ draft.longest ∧ (draft.embeddedSize (some l) : ℤ) ≤ budget} limit

/-- Where the measured data is within the budget, there is room for its angle brackets. -/
def Spare (draft : Draft F) (budget : ℤ) : Prop :=
  (draft.measure none ≤ budget → (draft.measure none + 5 * draft.angles none : ℤ) ≤ budget) ∧
    (budget < draft.measure none → ∀ limit ≤ draft.longest, draft.measure (some limit) ≤ budget →
      (draft.measure (some limit) + 5 * draft.angles (some limit) : ℤ) ≤ budget)

/-- The best limit for what is measured is the best one for the page exactly when there is
room for the angle brackets. -/
theorem isBest_iff_spare {payload : Payload F} (h : fitBudget draft budget = .ok payload) :
    payload = draft.apply payload.truncation.limit ∧
      (IsBest draft budget payload.truncation.limit ↔ Spare draft budget) := by
  by_cases hwhole : draft.measure none ≤ budget
  · rw [fitBudget_whole hwhole] at h
    obtain rfl := Except.ok.inj h
    refine ⟨rfl, ?_⟩
    change (draft.embeddedSize none : ℤ) ≤ budget ↔ _
    rw [embeddedSize_eq, Spare]
    constructor
    · intro hfits
      exact ⟨fun _ => by exact_mod_cast hfits, fun hlarge => by omega⟩
    · intro hspare
      exact_mod_cast hspare.1 hwhole
  · rw [not_le] at hwhole
    by_cases hzero : draft.measure (some 0) ≤ budget
    · obtain ⟨best, hbest, hok⟩ := fitBudget_clipped hwhole hzero
      rw [hok] at h
      obtain rfl := Except.ok.inj h
      refine ⟨rfl, ?_⟩
      change _ ∧ IsGreatest _ best ↔ _
      constructor
      · rintro ⟨-, ⟨-, hfits⟩, -⟩
        refine ⟨fun hsmall => by omega, fun _ limit hlimit hmeasured => ?_⟩
        have hle : limit ≤ best := hbest.2 ⟨hlimit, hmeasured⟩
        have hmono := embeddedSize_mono draft hle
        simp only [embeddedSize_eq] at hmono hfits
        push_cast at hfits
        omega
      · intro hspare
        have hfits := hspare.2 hwhole best hbest.1.1 hbest.1.2
        have hnone := embeddedSize_eq draft none
        have hsome := embeddedSize_eq draft (some best)
        refine ⟨by omega, ⟨hbest.1.1, by omega⟩, fun limit hlimit => hbest.2 ⟨hlimit.1, ?_⟩⟩
        have hother := embeddedSize_eq draft (some limit)
        have hin := hlimit.2
        omega
    · rw [fitBudget_refused hwhole (not_le.mp hzero)] at h
      cases h

/-- Data is refused only when it is too long even without any text. -/
theorem fitBudget_error {failure : Failure} (h : fitBudget draft budget = .error failure) :
    budget < draft.measure (some 0) := by
  by_contra hzero
  by_cases hwhole : draft.measure none ≤ budget
  · rw [fitBudget_whole hwhole] at h
    cases h
  · obtain ⟨best, -, hok⟩ := fitBudget_clipped (not_le.mp hwhole) (not_lt.mp hzero)
    rw [hok] at h
    cases h

end Search

/-! ## Before the search -/

section Attribution

variable {events : List (StoredEvent F D)}

/-- A call can be attributed exactly if its inputs are not negative. -/
theorem attributeCall_isOk (header : RunHeader F) (turn : ℕ) {call : ModelCallEvent F} :
    (∃ shares, Profiles.attributeCall header turn call = .ok shares) ↔
      0 ≤ call.response.usage.inputTokens := by
  rw [Profiles.attributeCall]
  constructor
  · rintro ⟨shares, hshares⟩
    by_contra hneg
    rw [Profiles.proportional, if_pos (not_le.mp hneg)] at hshares
    cases hshares
  · intro hnonneg
    obtain ⟨parts, hparts, -⟩ := Profiles.proportional_exact hnonneg (Profiles.weights_nonneg call)
    exact ⟨_, by rw [hparts]; rfl⟩

/-- Calls can be attributed exactly if none has negative inputs. -/
theorem attributeCalls_isOk (header : RunHeader F) (turn : ℕ) {calls : List (ModelCallEvent F)} :
    (∃ shares, Profiles.attributeCalls header turn calls = .ok shares) ↔
      ∀ call ∈ calls, 0 ≤ call.response.usage.inputTokens := by
  induction calls generalizing turn with
  | nil => exact iff_of_true ⟨[], rfl⟩ fun call hcall => nomatch hcall
  | cons call calls ih =>
    rw [List.forall_mem_cons, ← attributeCall_isOk header turn, ← ih (turn + 1),
      Profiles.attributeCalls]
    cases Profiles.attributeCall header turn call with
    | error e => simp [bind, Except.bind]
    | ok shares =>
      cases Profiles.attributeCalls header (turn + 1) calls with
      | error e => simp [bind, Except.bind]
      | ok others => simp [bind, Except.bind]

/-- A run is summed up unless a model call has a negative number of input tokens. -/
theorem runSummary_isOk {header : RunHeader F} {steps : ℕ} {store : Text} :
    (∃ data, runSummary header events steps store = .ok data) ↔
      ∀ call ∈ Profiles.modelCalls events, 0 ≤ call.response.usage.inputTokens := by
  rw [← attributeCalls_isOk header 0, runSummary, spend,
    Profiles.attributeTokens]
  cases Profiles.attributeCalls header 0 (Profiles.modelCalls events) with
  | error e => simp [bind, Except.bind]
  | ok shares => simp [bind, Except.bind, pure, Except.pure]

end Attribution

/-- A computation returns when its first part does and the rest does. -/
theorem bind_isOk {α β ε : Type} {x : Except ε α} {f : α → Except ε β} :
    (∃ b, (x >>= f) = .ok b) ↔ ∃ a, x = .ok a ∧ ∃ b, f a = .ok b := by
  cases x with
  | error e => simp [bind, Except.bind]
  | ok a => simp [bind, Except.bind]

/-- Renaming the error changes no result. -/
theorem mapError_eq_ok {α ε ε' : Type} {x : Except ε α} {f : ε → ε'} {a : α} :
    x.mapError f = .ok a ↔ x = .ok a := by
  cases x <;> simp [Except.mapError]

section Preparation

open Tracewake.Localization (Lowercase Blank)

variable [Sha256 D] [FloatValue F]

/-- The steps are those that the diff aligned. -/
def SameSteps (traces : List (StepTrace F D)) (steps : List (Step F)) : Prop :=
  traces.length = steps.length ∧ ∀ pair ∈ traces.zip steps, pair.1.step.equal pair.2 = true

omit [Python F] [Sha256 D] in
/-- The check of the steps passes exactly if they are those of the traces. -/
theorem checkSameSteps_isOk {traces : List (StepTrace F D)} {steps : List (Step F)}
    {side : String} :
    (∃ checked, checkSameSteps traces steps side = .ok checked) ↔ SameSteps traces steps := by
  rw [checkSameSteps, SameSteps, ← List.all_eq_true]
  split
  · next h => exact iff_of_true ⟨(), rfl⟩ h
  · next h => exact iff_of_false (fun ⟨_, hchecked⟩ => nomatch hchecked) h

variable [Lowercase]

omit [Python F] [FloatValue F] in
/-- The failing run is localized unless a step without recorded writes has a blank name. -/
theorem localized_isOk {steps : List (Step F)} : (∃ found, localized steps = .ok found) ↔
    ∀ step ∈ steps, step.writes ≠ ∅ ∨
      ∀ action ∈ Localization.actions step, ¬ Blank action.1 := by
  simp only [← Localization.writtenPaths_isOk]
  rw [localized]
  by_cases hempty : steps = []
  · simp [hempty]
  · rw [if_neg hempty]
    constructor
    · rintro ⟨found, hfound⟩
      cases hlocalize : Localization.localize steps with
      | error failure =>
        rw [hlocalize] at hfound
        cases hfound
      | ok result => exact Localization.writtenPaths_of_localize hempty hlocalize
    · intro hall
      obtain ⟨step, klass, hlocalize, -⟩ := (Localization.localize_isOk hempty).mpr hall
      exact ⟨_, by rw [hlocalize]; rfl⟩

variable [ScoreFloats F]

/-- What the payload is built from: the steps that were aligned, names that the localization
can read, and numbers of tokens that can be shared out. -/
structure Prepared (runs : Comparison F D) : Prop where
  good : SameSteps (extractTraces false runs.goodEvents) runs.result.goodSteps
  bad : SameSteps (extractTraces false runs.badEvents) runs.result.badSteps
  names : ∀ step ∈ runs.result.badSteps, step.writes ≠ ∅ ∨
    ∀ action ∈ Localization.actions step, ¬ Blank action.1
  goodUsage : ∀ call ∈ Profiles.modelCalls runs.goodEvents, 0 ≤ call.response.usage.inputTokens
  badUsage : ∀ call ∈ Profiles.modelCalls runs.badEvents, 0 ≤ call.response.usage.inputTokens

/-- The payload is built unless the runs are not prepared for it. -/
theorem prepare_isOk {runs : Comparison F D} :
    (∃ draft, prepare runs = .ok draft) ↔ Prepared runs := by
  rw [prepare]
  simp only [bind_isOk, mapError_eq_ok]
  constructor
  · rintro ⟨checked, hgood, checked', hbad, found, hfound, summary, hsummary, summary',
      hsummary', -⟩
    exact {
      good := checkSameSteps_isOk.mp ⟨checked, hgood⟩
      bad := checkSameSteps_isOk.mp ⟨checked', hbad⟩
      names := localized_isOk.mp ⟨found, hfound⟩
      goodUsage := runSummary_isOk.mp ⟨summary, hsummary⟩
      badUsage := runSummary_isOk.mp ⟨summary', hsummary'⟩ }
  · intro h
    obtain ⟨checked, hgood⟩ := checkSameSteps_isOk.mpr h.good
    obtain ⟨checked', hbad⟩ := checkSameSteps_isOk.mpr h.bad
    obtain ⟨found, hfound⟩ := localized_isOk.mpr h.names
    obtain ⟨summary, hsummary⟩ := runSummary_isOk.mpr h.goodUsage
    obtain ⟨summary', hsummary'⟩ := runSummary_isOk.mpr h.badUsage
    exact ⟨checked, hgood, checked', hbad, found, hfound, summary, hsummary, summary', hsummary',
      _, rfl⟩

/-- The promise of the budget: the data in the page is within it, the limit is the largest
one for which it is, and only data that is too long without any text is refused. -/
structure Honoured (runs : Comparison F D) (budget : ℤ) : Prop where
  returned : ∀ payload, buildPayload runs budget = .ok payload →
    ((embedded payload.data).length : ℤ) ≤ budget ∧ ∃ draft, prepare runs = .ok draft ∧
      payload = draft.apply payload.truncation.limit ∧
        IsBest draft budget payload.truncation.limit
  raised : ∀ failure, buildPayload runs budget = .error failure →
    ∃ draft, prepare runs = .ok draft ∧ budget < draft.embeddedSize (some 0)

/-- The budget is honoured exactly when the payload is built and, where what is measured is
within the budget, there is room for five bytes more for each angle bracket. -/
theorem buildPayload_honoured_iff (runs : Comparison F D) (budget : ℤ) :
    Honoured runs budget ↔
      Prepared runs ∧ ∀ draft, prepare runs = .ok draft → Spare draft budget := by
  rw [← prepare_isOk]
  cases hdraft : prepare runs with
  | error failure =>
    have hraises : buildPayload runs budget = .error failure := by
      rw [buildPayload, hdraft]
      rfl
    refine iff_of_false (fun h => ?_) (fun h => ?_)
    · obtain ⟨draft, hok, -⟩ := h.raised failure hraises
      rw [hdraft] at hok
      cases hok
    · obtain ⟨draft, hok⟩ := h.1
      cases hok
  | ok draft =>
    have hbuild : buildPayload runs budget = fitBudget draft budget := by
      rw [buildPayload, hdraft]
      rfl
    simp only [Except.ok.injEq, exists_eq', true_and, forall_eq']
    cases hfit : fitBudget draft budget with
    | error failure =>
      have hlarge := fitBudget_error hfit
      have hsize (limit : ℕ) : budget < draft.measure (some limit) := by
        have hmono := measure_mono draft (Nat.zero_le limit)
        simp only at hmono
        omega
      refine iff_of_true ⟨fun payload hok => ?_, fun _ _ => ⟨draft, hdraft, ?_⟩⟩ ⟨?_, ?_⟩
      · rw [hbuild, hfit] at hok
        cases hok
      · have hembedded := embeddedSize_eq draft (some 0)
        omega
      · intro hwhole
        rw [fitBudget_whole hwhole] at hfit
        cases hfit
      · intro _ limit _ hsmall
        have hlimit := hsize limit
        omega
    | ok payload =>
      obtain ⟨happly, hbest⟩ := isBest_iff_spare hfit
      have hsize : (embedded payload.data).length =
          draft.embeddedSize payload.truncation.limit := by
        rw [Draft.embeddedSize, ← happly]
      rw [← hbest]
      constructor
      · intro h
        obtain ⟨-, other, hother, -, hlimit⟩ := h.returned payload (hbuild.trans hfit)
        rw [hdraft] at hother
        obtain rfl := Except.ok.inj hother
        exact hlimit
      · intro h
        have hfits : (draft.embeddedSize payload.truncation.limit : ℤ) ≤ budget := by
          cases hlimit : payload.truncation.limit with
          | none =>
            rw [hlimit] at h
            exact h
          | some limit =>
            rw [hlimit] at h
            exact h.2.1.2
        constructor
        · intro other hok
          rw [hbuild, hfit] at hok
          obtain rfl := Except.ok.inj hok
          exact ⟨by rw [hsize]; exact hfits, draft, hdraft, happly, h⟩
        · intro failure herror
          rw [hbuild, hfit] at herror
          cases herror

end Preparation

/-! Two runs of one step each, whose prompt is a list in HTML. -/

namespace Demo

open Tracewake.Alignment.Demo (zero unmeasured stored)

/-- What the interpreter computes from `1.0`: no other number is rounded here. -/
@[reducible] def unitFloats : ScoreFloats Decimal where
  round x := x
  similarity x := x
  aboveFour _ := false

/-- The text of the example's number is a number. -/
theorem one_isNumber : isNumber "1.0".toList = true := by decide

/-- The example's number is no integer. -/
theorem one_fraction : ¬ Integral "1.0".toList := by decide

def one : Decimal := ⟨"1.0".toList, one_isNumber, one_fraction⟩

/-- The model call with its prompt. -/
def prompted : ModelCallEvent Decimal where
  callId := "c".toList
  provider := "openai".toList
  modelId := "m".toList
  modelVersion := none
  params := {}
  tools := none
  messages := [{ role := .user, content := "<ul><li></li><li></li></ul>".toList }]
  messagesHash := []
  response := { finishReason := "tool_calls".toList }
  stream := none
  eventMeta := unmeasured
  reassembles := streamReassembles_none _

/-- The tool call that the model asked for. -/
def listed : ToolCallEvent Decimal HexDigest where
  parentCallId := "c".toList
  toolCallId := "t".toList
  batchIndex := 0
  name := "list_files".toList
  args := .empty
  argsHash := []
  result := ⟨Sha256.hash [], 0⟩
  status := .ok
  error := none
  eventMeta := unmeasured

def listing : List (StoredEvent Decimal HexDigest) :=
  [stored 0 (.modelCall prompted), stored 1 (.toolCall listed)]

def header : RunHeader Decimal where
  runId := "run".toList
  name := "list".toList
  startedAt := zero
  status := .ok

/-- The step of either run. -/
def step : Step Decimal where
  name := "list_files".toList
  args := []

/-- The two runs and their alignment. -/
def runs : Comparison Decimal HexDigest where
  goodHeader := header
  goodEvents := listing
  badHeader := header
  badEvents := listing
  result := {
    goodSteps := [step], badSteps := [step], alignment := [(some 0, some 0)], score := one
    divergence := none, lengthRatio := some one, embeddingModel := some "lexical".toList
    embeddingRevision := none, scores := some fun _ _ => one }

end Demo

section Demo

local instance demoLowercase : Localization.Lowercase := Localization.asciiLowercase

local instance demoFloats : ScoreFloats Decimal := Demo.unitFloats

/-- The measured size of the data of the two runs, and its angle brackets. -/
theorem runs_sizes : (prepare Demo.runs).toOption.map
    (fun draft => (draft.measure none, draft.angles none)) = some (1590, 6) := by
  decide +kernel

/-- A budget of 1600 bytes is exceeded by twenty. -/
theorem buildPayload_exceeds : ¬ Honoured Demo.runs 1600 := by
  intro h
  have hsizes := runs_sizes
  cases hdraft : prepare Demo.runs with
  | error failure =>
    rw [hdraft] at hsizes
    cases hsizes
  | ok draft =>
    rw [hdraft] at hsizes
    obtain ⟨hmeasure, hangles⟩ := Prod.mk.inj (Option.some.inj hsizes)
    have hok : buildPayload Demo.runs 1600 = .ok (draft.apply none) := by
      rw [buildPayload, hdraft]
      exact fitBudget_whole (by omega)
    have hfits := (h.returned _ hok).1
    have hembedded := embeddedSize_eq draft none
    change (draft.embeddedSize none : ℤ) ≤ 1600 at hfits
    omega

end Demo

end Tracewake.Reports
