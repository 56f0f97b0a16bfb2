import Mathlib.Algebra.Order.BigOperators.Group.List
import Mathlib.Algebra.Order.Field.Basic
import Mathlib.Data.Finset.Card
import Tracewake.Alignment.Similarity
import Tracewake.Sequences.Pairs

/-!
# Bounds of the similarity of steps

Every component of the similarity lies between zero and one, and is one on equal steps. The
similarity is missing where an integer is too large to be compared as a floating point
number, and equal steps are not recognised when their reasoning has no tokens.
-/

namespace Tracewake.Alignment

open JsonText Recording Set
open Tracewake.Localization (Lowercase)

/-! ## Components -/

section Components

/-- A part divided by its whole is a share. -/
theorem div_mem_Icc {a b : ℕ} (h : a ≤ b) : (a / b : ℚ) ∈ Icc (0 : ℚ) 1 := by
  constructor
  · positivity
  · apply div_le_one_of_le₀
    · exact_mod_cast h
    · positivity

/-- A condition counts as 0 or as 1. -/
theorem ite_mem_Icc (p : Prop) [Decidable p] : (if p then 1 else 0 : ℚ) ∈ Icc (0 : ℚ) 1 := by
  split <;> simp

/-- The similarity of two paths is a share: that of the components they have in common. -/
theorem pathSimilarity_mem (a b : Text) : pathSimilarity a b ∈ Icc (0 : ℚ) 1 := by
  unfold pathSimilarity
  split
  · simp
  · split
    · simp
    · simp only
      split
      · simp
      · apply div_mem_Icc
        calc _ ≤ ((pathParts a).reverse.zip (pathParts b).reverse).length :=
              (List.takeWhile_prefix _).length_le
          _ ≤ max (pathParts a).length (pathParts b).length := by
              simp only [List.length_zip, List.length_reverse]
              omega

/-- The Jaccard index is a share: that of the common elements. -/
theorem jaccard_mem {α : Type} [DecidableEq α] (a b : Finset α) :
    jaccard a b ∈ Icc (0 : ℚ) 1 :=
  div_mem_Icc (Finset.card_le_card (Finset.inter_subset_left.trans Finset.subset_union_left))

/-- A set that is not empty is as similar to itself as can be. -/
theorem jaccard_self {α : Type} [DecidableEq α] {a : Finset α} (h : a ≠ ∅) :
    jaccard a a = 1 := by
  rw [jaccard, Finset.inter_self, Finset.union_self]
  apply div_self
  exact_mod_cast Finset.card_ne_zero.mpr (Finset.nonempty_iff_ne_empty.mpr h)

/-- The similarity of two token sets is a share. -/
theorem tokenJaccard_mem [Lowercase] (a b : Text) : tokenJaccard a b ∈ Icc (0 : ℚ) 1 := by
  unfold tokenJaccard
  split
  · simp
  · simp only
    split
    · simp
    · split
      · simp
      · exact jaccard_mem _ _

/-- The similarity of two texts is a share, as the matcher promises. -/
theorem textSimilarity_mem [Matcher] (a b : Text) : textSimilarity a b ∈ Icc (0 : ℚ) 1 := by
  unfold textSimilarity
  split
  · simp
  · split
    · simp
    · exact ⟨Matcher.ratio_nonneg a b, Matcher.ratio_le_one a b⟩

/-- The closeness of two numbers is a share: the distance is bounded by the larger of
them. -/
theorem closeness_mem (x y : Converted) : closeness x y ∈ Icc (0 : ℚ) 1 := by
  unfold closeness
  split
  · next x y =>
    constructor
    · exact le_max_left _ _
    · have hnonneg : 0 ≤ |x - y| / lineFalloff := div_nonneg (abs_nonneg _) (by decide)
      apply max_le
      · decide
      · linarith
  · simp

/-- The similarity of two sets of files is a share, also where both are empty. -/
theorem jaccardFiles_mem (a b : Finset (Text × Text)) : jaccardFiles a b ∈ Icc (0 : ℚ) 1 := by
  unfold jaccardFiles
  split
  · simp
  · exact jaccard_mem a b

/-- A set of files is as similar to itself as can be, also where it is empty. -/
theorem jaccardFiles_self (a : Finset (Text × Text)) : jaccardFiles a a = 1 := by
  unfold jaccardFiles
  split
  · rfl
  · next h => exact jaccard_self fun hempty => h ⟨hempty, hempty⟩

/-- A weighted mean of numbers of the unit interval lies in it. -/
theorem weighted_mem {x y p q : ℚ} (hp : 0 ≤ p) (hq : 0 ≤ q) (hsum : p + q = 1)
    (hx : x ∈ Icc (0 : ℚ) 1) (hy : y ∈ Icc (0 : ℚ) 1) : p * x + q * y ∈ Icc (0 : ℚ) 1 := by
  have hpx := mul_le_mul_of_nonneg_left hx.2 hp
  have hqy := mul_le_mul_of_nonneg_left hy.2 hq
  constructor
  · exact add_nonneg (mul_nonneg hp hx.1) (mul_nonneg hq hy.1)
  · linarith

/-- The mean of shares is a share. An empty mean is 0. -/
theorem mean_mem {parts : List ℚ} (h : ∀ part ∈ parts, part ∈ Icc (0 : ℚ) 1) :
    parts.sum / parts.length ∈ Icc (0 : ℚ) 1 := by
  constructor
  · exact div_nonneg (List.sum_nonneg fun part hpart => (h part hpart).1) (by positivity)
  · apply div_le_one_of_le₀
    · have hsum := List.sum_le_card_nsmul parts 1 fun part hpart => (h part hpart).2
      simpa using hsum
    · positivity

/-- The mean of ones is 1 if there is one. -/
theorem mean_ones {parts : List ℚ} (hne : parts ≠ []) (h : ∀ part ∈ parts, part = 1) :
    parts.sum / parts.length = 1 := by
  have hlength : (parts.length : ℚ) ≠ 0 := by
    exact_mod_cast (List.length_pos_of_ne_nil hne).ne'
  have hsum : parts.sum = parts.length := by
    rw [List.eq_replicate_of_mem h, List.sum_replicate, List.length_replicate, nsmul_one]
  rw [hsum, div_self hlength]

end Components

/-! ## Values -/

section Values

variable {F : Type} [FloatValue F] [FloatText] [Python F] [Matcher]

/-- An integer that `float` refuses. -/
def Huge (v : Value F) : Prop := ∃ n, v = .num (.int n) ∧ Overflows n

/-- A value that `float` accepts. -/
def Readable (v : Value F) : Prop := ∃ x, toFloat v = .ok x

omit [Python F] [Matcher] in
/-- Converting a value to a float overflows exactly for the integers beyond the floats. -/
theorem toFloat_overflows {v : Value F} : toFloat v = .error .overflowError ↔ Huge v := by
  rw [Huge]
  cases v with
  | num n =>
    cases n with
    | int n =>
      by_cases hn : Overflows n <;> simp [toFloat, hn]
    | float x => simp [toFloat]
  | str text =>
    rw [toFloat]
    split <;> simp
  | _ => simp [toFloat]

omit [FloatValue F] [FloatText] [Matcher] in
/-- Values are compared by their texts when both can be written. -/
theorem byText_isOk (similarity : Text → Text → ℚ) {a b : Value F} :
    (∃ s, byText similarity a b = .ok s) ↔ Printable a ∧ Printable b := by
  by_cases ha : Printable a <;> by_cases hb : Printable b <;>
    simp [byText, toText, ha, hb, bind, Except.bind, pure, Except.pure]

omit [FloatValue F] [FloatText] [Matcher] in
/-- Where two values are compared by their texts, the texts decide. -/
theorem byText_ok {similarity : Text → Text → ℚ} {a b : Value F} {s : ℚ}
    (h : byText similarity a b = .ok s) : s = similarity (Python.str a) (Python.str b) := by
  obtain ⟨ha, hb⟩ := (byText_isOk similarity).mp ⟨s, h⟩
  simp only [byText, toText, if_pos ha, if_pos hb, bind, Except.bind, pure, Except.pure,
    Except.ok.injEq] at h
  exact h.symm

/-- Numbers can be compared unless an integer that is too large is reached. What is no number
has to be written. -/
theorem numberSimilarity_isOk {a b : Value F} : (∃ s, numberSimilarity a b = .ok s) ↔
    ¬ (Huge a ∨ Readable a ∧ Huge b) ∧
      (Readable a ∧ Readable b ∨ Printable a ∧ Printable b) := by
  rw [← toFloat_overflows, ← toFloat_overflows, Readable, Readable, numberSimilarity,
    ← byText_isOk textSimilarity]
  cases toFloat a with
  | error e => cases e <;> simp [bind, Except.bind]
  | ok x =>
    cases toFloat b with
    | error e => cases e <;> simp [bind, Except.bind]
    | ok y => simp [bind, Except.bind, pure, Except.pure]

/-- The similarity of two numbers is a share where it is computed. -/
theorem numberSimilarity_mem {a b : Value F} {s : ℚ} (h : numberSimilarity a b = .ok s) :
    s ∈ Icc (0 : ℚ) 1 := by
  unfold numberSimilarity at h
  simp only at h
  split at h
  · next similarity hconverted =>
    obtain rfl := Except.ok.inj h
    cases ha : toFloat a with
    | error e => simp [ha, bind, Except.bind] at hconverted
    | ok x =>
      cases hb : toFloat b with
      | error e => simp [ha, hb, bind, Except.bind] at hconverted
      | ok y =>
        simp only [ha, hb, bind, Except.bind, pure, Except.pure, Except.ok.injEq] at hconverted
        rw [← hconverted]
        exact closeness_mem x y
  · cases h
  · rw [byText_ok h]
    exact textSimilarity_mem _ _

/-- The values are compared as numbers. -/
def Compared (key : Text) (a b : Value F) : Prop :=
  key = "around".toList ∨ key = "at".toList ∨
    key ∉ ["path".toList, "query".toList, "old".toList, "new".toList] ∧
      (numeric a).isSome ∧ (numeric b).isSome

/-- Two values under a key can be compared: an integer that is compared as a number is not too
large for a float, and what is compared as a text is not too long to be written. -/
structure Comparable (key : Text) (a b : Value F) : Prop where
  numbers : Compared key a b → ¬ (Huge a ∨ Readable a ∧ Huge b)
  texts : ¬ (Compared key a b ∧ Readable a ∧ Readable b) → Printable a ∧ Printable b

variable [Lowercase]

/-- Values that are equal are as similar as can be, whatever their key. -/
theorem valueSimilarity_of_equal {key : Text} {a b : Value F} (h : equal a b = true) :
    valueSimilarity key a b = .ok 1 := by
  rw [valueSimilarity, if_pos h]

/-- Values under a key that is compared by number have the similarity of their numbers. -/
theorem valueSimilarity_compared {key : Text} {a b : Value F} (hne : equal a b = false)
    (h : Compared key a b) : valueSimilarity key a b = numberSimilarity a b := by
  rw [valueSimilarity, if_neg (Bool.eq_false_iff.mp hne)]
  rcases h with rfl | rfl | ⟨hkey, hnumeric⟩
  · rfl
  · rfl
  · simp only [List.mem_cons, List.not_mem_nil, or_false, not_or] at hkey
    obtain ⟨hpath, hquery, hold, hnew⟩ := hkey
    rw [if_neg hpath, if_neg hquery, if_neg (not_or.mpr ⟨hold, hnew⟩), if_pos hnumeric, ite_self]

/-- What is not compared as a number is compared by its text. -/
theorem valueSimilarity_uncompared {key : Text} {a b : Value F} (hne : equal a b = false)
    (h : ¬ Compared key a b) : ∃ similarity : Text → Text → ℚ,
      valueSimilarity key a b = byText similarity a b ∧ ∀ s t, similarity s t ∈ Icc (0 : ℚ) 1 := by
  rw [valueSimilarity, if_neg (Bool.eq_false_iff.mp hne)]
  split
  · exact ⟨_, rfl, pathSimilarity_mem⟩
  next hpath =>
  split
  · exact ⟨_, rfl, tokenJaccard_mem⟩
  next hquery =>
  split
  · exact ⟨_, rfl, textSimilarity_mem⟩
  next htexts =>
  split
  · next hkey => exact absurd (hkey.imp_right .inl) h
  split
  · next hnumeric =>
    refine absurd (.inr (.inr ⟨?_, hnumeric⟩)) h
    simp only [List.mem_cons, List.not_mem_nil, or_false, not_or]
    exact ⟨hpath, hquery, not_or.mp htexts⟩
  · exact ⟨_, rfl, textSimilarity_mem⟩

/-- The similarity of two values is computed exactly if they are equal or can be
compared. -/
theorem valueSimilarity_isOk {key : Text} {a b : Value F} :
    (∃ s, valueSimilarity key a b = .ok s) ↔ (equal a b = false → Comparable key a b) := by
  by_cases hequal : equal a b = true
  · simp [hequal, valueSimilarity_of_equal hequal]
  rw [Bool.not_eq_true] at hequal
  simp only [hequal, forall_const]
  by_cases hcompared : Compared key a b
  · rw [valueSimilarity_compared hequal hcompared, numberSimilarity_isOk]
    constructor
    · rintro ⟨hnumbers, htexts⟩
      exact ⟨fun _ => hnumbers, fun hnot =>
        htexts.resolve_left fun hreadable => hnot ⟨hcompared, hreadable⟩⟩
    · rintro ⟨hnumbers, htexts⟩
      refine ⟨hnumbers hcompared, or_iff_not_imp_left.mpr fun hnot => ?_⟩
      exact htexts fun hboth => hnot hboth.2
  · obtain ⟨similarity, hsimilarity, -⟩ := valueSimilarity_uncompared hequal hcompared
    rw [hsimilarity, byText_isOk]
    constructor
    · exact fun hprintable => ⟨fun h => absurd h hcompared, fun _ => hprintable⟩
    · exact fun h => h.texts fun hboth => hcompared hboth.1

/-- The similarity of two values is a share where it is computed. -/
theorem valueSimilarity_mem {key : Text} {a b : Value F} {s : ℚ}
    (h : valueSimilarity key a b = .ok s) : s ∈ Icc (0 : ℚ) 1 := by
  by_cases hequal : equal a b = true
  · rw [valueSimilarity_of_equal hequal] at h
    obtain rfl := Except.ok.inj h
    simp
  rw [Bool.not_eq_true] at hequal
  by_cases hcompared : Compared key a b
  · rw [valueSimilarity_compared hequal hcompared] at h
    exact numberSimilarity_mem h
  · obtain ⟨similarity, hsimilarity, hmem⟩ := valueSimilarity_uncompared hequal hcompared
    rw [hsimilarity] at h
    rw [byText_ok h]
    exact hmem _ _

end Values

/-! ## Arguments -/

section Arguments

variable {F : Type} [FloatValue F] [FloatText] [Python F] [Matcher] [Lowercase] {x y : Step F}

/-- Any two arguments of the same key are equal or can be compared. -/
def Convertible (x y : Step F) : Prop :=
  x.batchNames = [] → y.batchNames = [] → ∀ key a b,
    key ∉ ["path".toList, "query".toList] → argument x.args key = some a →
      argument y.args key = some b → equal a b = false → Comparable key a b

omit [FloatValue F] [FloatText] [Python F] [Matcher] [Lowercase] in
/-- The remaining keys are those of either step other than the path and the query. -/
theorem mem_restKeys {key : Text} : key ∈ restKeys x y ↔
    (key ∈ x.args.map Prod.fst ∨ key ∈ y.args.map Prod.fst) ∧
      key ∉ ["path".toList, "query".toList] := by
  simp only [restKeys, sortedSet, List.mem_mergeSort, List.mem_dedup, List.mem_filter,
    List.mem_append, List.mem_cons, List.not_mem_nil, or_false, not_or, decide_eq_true_eq,
    ne_eq]

omit [FloatValue F] [FloatText] [Python F] [Matcher] [Lowercase] in
/-- A key with an argument is one of the keys. -/
theorem mem_keys_of_argument {args : List (Text × Value F)} {key : Text} {v : Value F}
    (h : argument args key = some v) : key ∈ args.map Prod.fst := by
  obtain ⟨entry, hentry, -⟩ := Option.map_eq_some_iff.mp h
  have hkey := List.find?_some hentry
  rw [← of_decide_eq_true hkey]
  exact List.mem_map_of_mem (List.mem_of_find?_eq_some hentry)

/-- The remaining parts are computed exactly if every pair of arguments can be compared. -/
theorem restParts_isOk (hx : x.batchNames = []) (hy : y.batchNames = []) :
    (∃ parts, (restKeys x y).mapM (restPart x y) = .ok parts) ↔ Convertible x y := by
  rw [Sequences.mapM_isOk]
  constructor
  · intro h _ _ key a b hkey ha hb
    have hpart := h key (mem_restKeys.mpr ⟨.inl (mem_keys_of_argument ha), hkey⟩)
    rw [restPart, ha, hb] at hpart
    exact valueSimilarity_isOk.mp hpart
  · intro h key hmem
    unfold restPart
    split
    · next a b ha hb =>
      exact valueSimilarity_isOk.mpr (h hx hy key a b (mem_restKeys.mp hmem).2 ha hb)
    · exact ⟨0, rfl⟩

/-- A remaining part is a share where it is computed. -/
theorem restPart_mem {key : Text} {s : ℚ} (h : restPart x y key = .ok s) :
    s ∈ Icc (0 : ℚ) 1 := by
  unfold restPart at h
  split at h
  · exact valueSimilarity_mem h
  · obtain rfl := Except.ok.inj h
    simp

omit [FloatValue F] [FloatText] [Python F] [Matcher] in
/-- The similarity of two targets is a share. -/
theorem targetSimilarity_mem (x y : Step F) : targetSimilarity x y ∈ Icc (0 : ℚ) 1 := by
  unfold targetSimilarity
  split
  · split
    · exact pathSimilarity_mem _ _
    · split
      · exact tokenJaccard_mem _ _
      · exact ite_mem_Icc _
  · simp

omit [FloatValue F] [FloatText] [Python F] [Matcher] [Lowercase] in
/-- The similarity of two batches is a share. -/
theorem batchSimilarity_mem (x y : Step F) : batchSimilarity x y ∈ Icc (0 : ℚ) 1 := by
  unfold batchSimilarity
  split
  · simp
  · split
    · simp
    · exact jaccard_mem _ _

/-- The similarity of arguments is found exactly when no comparison meets a number that is
too large. -/
theorem argumentSimilarity_isOk :
    (∃ s, argumentSimilarity {} x y = .ok s) ↔ Convertible x y := by
  rw [argumentSimilarity, if_neg (by decide)]
  by_cases hbatch : x.batchNames ≠ [] ∨ y.batchNames ≠ []
  · rw [if_pos hbatch]
    refine iff_of_true ⟨_, rfl⟩ fun hx hy => ?_
    rcases hbatch with h | h
    · exact absurd hx h
    · exact absurd hy h
  · rw [if_neg hbatch, if_neg (by decide)]
    obtain ⟨hx, hy⟩ := not_or.mp hbatch
    rw [← restParts_isOk (not_not.mp hx) (not_not.mp hy)]
    cases (restKeys x y).mapM (restPart x y) with
    | error e => simp [bind, Except.bind]
    | ok parts => simp [bind, Except.bind, pure, Except.pure]

/-- The similarity of the arguments is a share where it is computed: it is a mean of
shares. -/
theorem argumentSimilarity_mem {s : ℚ} (h : argumentSimilarity {} x y = .ok s) :
    s ∈ Icc (0 : ℚ) 1 := by
  rw [argumentSimilarity, if_neg (by decide)] at h
  split at h
  · rw [if_neg (by decide)] at h
    obtain rfl := Except.ok.inj h
    exact weighted_mem (by norm_num) (by norm_num) (by norm_num) (batchSimilarity_mem x y)
      (batchSimilarity_mem x y)
  · rw [if_neg (by decide)] at h
    cases hparts : (restKeys x y).mapM (restPart x y) with
    | error e =>
      rw [hparts] at h
      cases h
    | ok parts =>
      rw [hparts] at h
      obtain rfl := Except.ok.inj h
      apply weighted_mem (by norm_num) (by norm_num) (by norm_num) (targetSimilarity_mem x y)
      split
      · simp
      · apply mean_mem
        intro part hpart
        obtain ⟨key, -, hkey⟩ :=
          Sequences.exists_of_mem_forall₂ (Sequences.forall₂_of_mapM_ok hparts) hpart
        exact restPart_mem hkey

/-- The fields of equal steps. -/
structure Agreeing (x y : Step F) : Prop where
  name : x.name = y.name
  args : List.Forall₂ (fun a b => a.1 = b.1 ∧ equal a.2 b.2 = true) x.args y.args
  target : x.target = y.target
  reasoning : x.reasoning = y.reasoning
  changedFiles : x.changedFiles = y.changedFiles
  batchNames : x.batchNames = y.batchNames
  batchTargets : x.batchTargets = y.batchTargets

omit [FloatText] [Python F] [Matcher] [Lowercase] in
/-- Equal steps agree in all that their similarity reads. -/
theorem Step.equal.agreeing (h : x.equal y = true) : Agreeing x y := by
  simp only [Step.equal, Bool.and_eq_true, decide_eq_true_eq, equalFields_iff] at h
  obtain ⟨⟨⟨⟨⟨⟨⟨⟨hname, hargs⟩, htarget⟩, hreasoning⟩, hfiles⟩, hnames⟩, htargets⟩, -⟩, -⟩ := h
  exact ⟨hname, hargs, htarget, hreasoning, hfiles, hnames, htargets⟩

omit [FloatText] [Python F] [Matcher] [Lowercase] in
/-- Equal dictionaries have equal values under each key. -/
theorem argument_of_equal {a b : List (Text × Value F)}
    (h : List.Forall₂ (fun x y => x.1 = y.1 ∧ equal x.2 y.2 = true) a b) (key : Text) :
    argument a key = none ∧ argument b key = none ∨
      ∃ v w, argument a key = some v ∧ argument b key = some w ∧ equal v w = true := by
  induction h with
  | nil => exact .inl ⟨rfl, rfl⟩
  | @cons first second a b hhead _ ih =>
    obtain ⟨hkey, hequal⟩ := hhead
    by_cases hfound : first.1 = key
    · right
      refine ⟨first.2, second.2, ?_, ?_, hequal⟩
      · simp [argument, hfound]
      · simp [argument, ← hkey, hfound]
    · have hother : ¬ second.1 = key := hkey ▸ hfound
      simpa [argument, List.find?_cons_of_neg, hfound, hother] using ih

omit [FloatValue F] [FloatText] [Python F] [Matcher] in
/-- Steps with the same target have targets as similar as can be. -/
theorem targetSimilarity_of_target (h : x.target = y.target) : targetSimilarity x y = 1 := by
  unfold targetSimilarity
  rw [h, pathSimilarity, tokenJaccard]
  simp

omit [FloatText] [Python F] [Matcher] [Lowercase] in
/-- Steps that agree have batches as similar as can be. -/
theorem batchSimilarity_of_agreeing (h : Agreeing x y) : batchSimilarity x y = 1 := by
  have htargets : x.targets = y.targets := by
    rw [Step.targets, Step.targets, h.batchTargets, h.target]
  rw [batchSimilarity, htargets]
  by_cases hempty : y.targets = ∅
  · simp [hempty]
  · simp [hempty, jaccard_self]

/-- Steps that agree have each remaining part as similar as can be. -/
theorem restPart_of_agreeing (h : Agreeing x y) {key : Text} (hkey : key ∈ restKeys x y) :
    restPart x y key = .ok 1 := by
  rcases argument_of_equal h.args key with ⟨hx, hy⟩ | ⟨v, w, hx, hy, hequal⟩
  · have hmissing {args : List (Text × Value F)} (hnone : argument args key = none) :
        key ∉ args.map Prod.fst := by
      rw [argument, Option.map_eq_none_iff, List.find?_eq_none] at hnone
      intro hmem
      obtain ⟨entry, hentry, rfl⟩ := List.mem_map.mp hmem
      exact hnone entry hentry (decide_eq_true rfl)
    rcases (mem_restKeys.mp hkey).1 with hmem | hmem
    · exact absurd hmem (hmissing hx)
    · exact absurd hmem (hmissing hy)
  · rw [restPart, hx, hy]
    exact valueSimilarity_of_equal hequal

/-- The arguments of equal steps are entirely alike. -/
theorem argumentSimilarity_of_agreeing (h : Agreeing x y) :
    argumentSimilarity {} x y = .ok 1 := by
  rw [argumentSimilarity, if_neg (by decide)]
  split
  · rw [if_neg (by decide), batchSimilarity_of_agreeing h]
    norm_num
  · have hparts : (restKeys x y).mapM (restPart x y) = .ok ((restKeys x y).map fun _ => 1) := by
      apply Sequences.mapM_ok
      rw [List.forall₂_map_right_iff, List.forall₂_same]
      exact fun key hkey => restPart_of_agreeing h hkey
    rw [if_neg (by decide), hparts, targetSimilarity_of_target h.target]
    simp only [bind, Except.bind, pure, Except.pure, Except.ok.injEq]
    split
    · norm_num
    · next hne =>
      rw [mean_ones hne (by simp)]
      norm_num

end Arguments

/-! ## Reasoning -/

section Reasoning

/-- The cosine is found for vectors of one length. -/
theorem cosine_isOk {u v : List ℚ} : (∃ s, cosine u v = .ok s) ↔ u.length = v.length := by
  rw [cosine]
  split
  · next h => simp [h]
  · next h =>
    refine iff_of_true ?_ (not_not.mp h)
    simp only
    split
    · exact ⟨0, rfl⟩
    · exact ⟨_, rfl⟩

/-- The cosine is a share where it is computed: both vectors have counts for entries. -/
theorem cosine_mem {u v : List ℚ} {s : ℝ} (h : cosine u v = .ok s) : s ∈ Icc (0 : ℝ) 1 := by
  unfold cosine at h
  split at h
  · cases h
  · simp only at h
    split at h
    · obtain rfl := Except.ok.inj h
      simp
    · obtain rfl := Except.ok.inj h
      exact ⟨le_max_left _ _, max_le zero_le_one (min_le_left _ _)⟩

/-- The product of a vector with itself is not negative. -/
theorem dot_self_nonneg (u : List ℚ) : 0 ≤ dot u u := by
  rw [dot, List.zipWith_self]
  apply List.sum_nonneg
  intro part hpart
  obtain ⟨x, -, rfl⟩ := List.mem_map.mp hpart
  exact mul_self_nonneg x

/-- A vector is zero exactly when it has no length. -/
theorem dot_self_eq_zero {u : List ℚ} : dot u u = 0 ↔ ∀ x ∈ u, x = 0 := by
  induction u with
  | nil => simp [dot]
  | cons x u ih =>
    have hsplit : dot (x :: u) (x :: u) = x * x + dot u u := by simp [dot]
    have hx := mul_self_nonneg x
    have hu := dot_self_nonneg u
    rw [hsplit, List.forall_mem_cons, ← ih, add_eq_zero_iff_of_nonneg hx hu, mul_self_eq_zero]

/-- A vector is entirely like itself unless it is zero. -/
theorem cosine_self (u : List ℚ) :
    cosine u u = .ok (if ∀ x ∈ u, x = 0 then 0 else 1) := by
  have hnonneg : (0 : ℝ) ≤ (dot u u : ℚ) := by exact_mod_cast dot_self_nonneg u
  rw [cosine, if_neg (not_not.mpr rfl)]
  simp only [or_self, Real.sqrt_eq_zero hnonneg, Rat.cast_eq_zero, dot_self_eq_zero,
    Real.mul_self_sqrt hnonneg]
  split
  · rfl
  · next h =>
    have hne : ((dot u u : ℚ) : ℝ) ≠ 0 := by
      exact_mod_cast fun hzero => h (dot_self_eq_zero.mp hzero)
    rw [div_self hne, min_self, max_eq_right zero_le_one]

section Counting

variable {vocab tokens : List Text}

/-- A count vector has one entry for each word of the vocabulary, and one at least. -/
theorem countVector_length (vocab tokens : List Text) :
    (countVector vocab tokens).length = max vocab.length 1 := by
  rw [countVector]
  induction tokens using List.reverseRecOn with
  | nil => simp
  | append_singleton tokens token ih => rw [List.foldl_append]; simpa using ih

/-- Counting one more word adds 1 to the sum of the counts. -/
theorem sum_modify {vec : List ℚ} {i : ℕ} (h : i < vec.length) :
    (vec.modify i (· + 1)).sum = vec.sum + 1 := by
  induction vec generalizing i with
  | nil => simp at h
  | cons x vec ih =>
    cases i with
    | zero => simp [add_right_comm]
    | succ i => simp [ih (Nat.lt_of_succ_lt_succ h), add_assoc]

/-- The entries of a vector count the tokens. -/
theorem countVector_sum (h : ∀ token ∈ tokens, token ∈ vocab) :
    (countVector vocab tokens).sum = tokens.length := by
  induction tokens using List.reverseRecOn with
  | nil => simp [countVector]
  | append_singleton tokens token ih =>
    have hrest := ih fun t ht => h t (List.mem_append_left _ ht)
    have hin := List.idxOf_lt_length_of_mem (h token (by simp))
    have hlength := countVector_length vocab tokens
    rw [countVector, List.foldl_append, ← countVector]
    simp only [List.foldl_cons, List.foldl_nil]
    rw [sum_modify (by omega), hrest]
    simp

/-- A vector is zero exactly when there are no tokens. -/
theorem countVector_eq_zero (h : ∀ token ∈ tokens, token ∈ vocab) :
    (∀ x ∈ countVector vocab tokens, x = 0) ↔ tokens = [] := by
  constructor
  · intro hzero
    have hsum := countVector_sum h
    rw [List.sum_eq_zero hzero] at hsum
    exact List.length_eq_zero_iff.mp (by exact_mod_cast hsum.symm)
  · rintro rfl x hx
    exact List.eq_of_mem_replicate hx

end Counting

section Texts

variable [Lowercase]

/-- The text has a token, or is blank and stands for one. -/
def Worded (text : Text) : Prop :=
  ∃ c ∈ Lowercase.lower (if text.all isSpace then ['.'] else text), isWordChar c = true

/-- A text has tokens exactly if it has a word. -/
theorem lexicalTokens_ne_nil {text : Text} : lexicalTokens text ≠ [] ↔ Worded text := by
  have hparts := Localization.splitOnP_empty_iff (fun c => !isWordChar c)
    (Lowercase.lower (if text.all isSpace then ['.'] else text))
  rw [lexicalTokens, findTokens, Ne, List.filter_eq_nil_iff, Worded]
  simp only [decide_eq_true_eq, ne_eq, not_not, hparts, Bool.not_eq_true', not_forall,
    Bool.not_eq_false, exists_prop]

/-- The vector of a text in a vocabulary that has its tokens. -/
theorem lexicalEmbedder_getElem? {texts : List Text} {k : ℕ} {vector : List ℚ}
    (h : (lexicalEmbedder texts)[k]? = some vector) : ∃ text vocab, texts[k]? = some text ∧
      vocab = firsts (texts.map lexicalTokens).flatten ∧
      (∀ token ∈ lexicalTokens text, token ∈ vocab) ∧
      vector = countVector vocab (lexicalTokens text) := by
  simp only [lexicalEmbedder, List.map_map, List.getElem?_map, Option.map_eq_some_iff] at h
  obtain ⟨text, htext, rfl⟩ := h
  refine ⟨text, _, htext, rfl, ?_, rfl⟩
  intro token htoken
  rw [mem_firsts, List.mem_flatten]
  exact ⟨_, List.mem_map_of_mem (List.mem_of_getElem? htext), htoken⟩

end Texts

end Reasoning

/-! ## Steps -/

section Steps

variable {F : Type} [FloatValue F] [FloatText] [Python F] [Matcher] [Lowercase] {x y : Step F}
  {u v : List ℚ}

/-- The similarity is returned, lies in the unit interval, and makes equal steps score one. -/
def Sound (x y : Step F) (vectors : List ℚ × List ℚ) : Prop :=
  ∃ s, stepSimilarity {} (some vectors) x y = .ok s ∧ s ∈ Icc (0 : ℝ) 1 ∧
    (x.equal y = true → s = 1 ∧ scoreFromSimilarity s = 1)

/-- The components without the reasoning, weighted. -/
def known (arguments : ℚ) (x y : Step F) : ℚ :=
  45 / 100 * toolSimilarity x y + 25 / 100 * arguments +
    10 / 100 * jaccardFiles x.changedFiles y.changedFiles

/-- The similarity of two steps is the weighted sum of what is known of them and of their
reasoning. -/
theorem stepSimilarity_of_ok {arguments : ℚ} {reasoning : ℝ}
    (harguments : argumentSimilarity {} x y = .ok arguments)
    (hreasoning : cosine u v = .ok reasoning) :
    stepSimilarity {} (some (u, v)) x y =
      .ok (known arguments x y + (20 / 100 : ℚ) * reasoning) := by
  rw [stepSimilarity, harguments]
  simp only [bind, Except.bind, pure, Except.pure]
  rw [if_pos (by norm_num), reasoningSimilarity, hreasoning]
  rfl

/-- Where the similarity of two steps is computed, that of their arguments was. -/
theorem exists_arguments {s : ℝ} (h : stepSimilarity {} (some (u, v)) x y = .ok s) :
    ∃ arguments, argumentSimilarity {} x y = .ok arguments := by
  cases harguments : argumentSimilarity {} x y with
  | error e =>
    rw [stepSimilarity, harguments] at h
    cases h
  | ok arguments => exact ⟨arguments, rfl⟩

omit [FloatValue F] [FloatText] [Python F] [Matcher] [Lowercase] in
/-- The known part weighs 80 of 100. -/
theorem known_mem {arguments : ℚ} (h : arguments ∈ Icc (0 : ℚ) 1) :
    known arguments x y ∈ Icc (0 : ℚ) (80 / 100) := by
  have htool : toolSimilarity x y ∈ Icc (0 : ℚ) 1 := ite_mem_Icc _
  have hfiles := jaccardFiles_mem x.changedFiles y.changedFiles
  rw [known]
  constructor
  · linarith [h.1, htool.1, hfiles.1]
  · linarith [h.2, htool.2, hfiles.2]

omit [FloatText] [Python F] [Matcher] [Lowercase] in
/-- The known part of steps that agree is as large as can be. -/
theorem known_of_agreeing (h : Agreeing x y) : known 1 x y = 80 / 100 := by
  have hnames : x.names = y.names := by rw [Step.names, Step.names, h.batchNames, h.name]
  rw [known, toolSimilarity, if_pos hnames, h.changedFiles, jaccardFiles_self]
  norm_num

/-- Two steps are compared as they should be exactly when no comparison meets a number that
is too large and, where they are equal, their vectors are not zero. -/
theorem sound_iff (hlength : u.length = v.length) (hself : x.equal y = true → u = v) :
    Sound x y (u, v) ↔ Convertible x y ∧ (x.equal y = true → ¬ ∀ c ∈ u, c = 0) := by
  obtain ⟨reasoning, hreasoning⟩ := cosine_isOk.mpr hlength
  have hreasoning_mem := cosine_mem hreasoning
  have hone {arguments : ℚ} (harguments : argumentSimilarity {} x y = .ok arguments)
      (hequal : x.equal y = true) : ((known arguments x y : ℚ) : ℝ) + (20 / 100 : ℚ) * reasoning =
        80 / 100 + 20 / 100 * (if ∀ c ∈ u, c = 0 then 0 else 1) := by
    have hagreeing := Step.equal.agreeing hequal
    rw [argumentSimilarity_of_agreeing hagreeing] at harguments
    obtain rfl := Except.ok.inj harguments
    rw [← hself hequal, cosine_self] at hreasoning
    rw [← Except.ok.inj hreasoning, known_of_agreeing hagreeing]
    norm_num
  constructor
  · rintro ⟨s, hs, -, hexact⟩
    obtain ⟨arguments, harguments⟩ := exists_arguments hs
    refine ⟨argumentSimilarity_isOk.mp ⟨arguments, harguments⟩, fun hequal hzero => ?_⟩
    rw [stepSimilarity_of_ok harguments hreasoning] at hs
    have hvalue := hone harguments hequal
    rw [Except.ok.inj hs, (hexact hequal).1, if_pos hzero] at hvalue
    norm_num at hvalue
  · rintro ⟨hconvertible, hnonzero⟩
    obtain ⟨arguments, harguments⟩ := argumentSimilarity_isOk.mpr hconvertible
    have hknown : known arguments x y ∈ Icc (0 : ℚ) (80 / 100) :=
      known_mem (argumentSimilarity_mem harguments)
    have hlow : (0 : ℝ) ≤ (known arguments x y : ℚ) := by exact_mod_cast hknown.1
    have hhigh : ((known arguments x y : ℚ) : ℝ) ≤ 80 / 100 := by
      have := (Rat.cast_le (K := ℝ)).mpr hknown.2
      norm_num at this ⊢
      exact this
    refine ⟨_, stepSimilarity_of_ok harguments hreasoning, ⟨?_, ?_⟩, fun hequal => ?_⟩
    · have := hreasoning_mem.1
      push_cast
      linarith
    · have := hreasoning_mem.2
      push_cast
      linarith
    · have hvalue := hone harguments hequal
      rw [if_neg (hnonzero hequal)] at hvalue
      rw [hvalue, scoreFromSimilarity]
      norm_num

omit [FloatValue F] [FloatText] [Python F] [Matcher] in
/-- The lexical embedder returns a vector for each step of both runs. -/
theorem vectorsOf_lexicalEmbedder (good bad : List (Step F)) :
    vectorsOf lexicalEmbedder good bad =
      .ok ((lexicalEmbedder ((good ++ bad).map fun step => step.reasoning)).take good.length,
        (lexicalEmbedder ((good ++ bad).map fun step => step.reasoning)).drop good.length) := by
  rw [vectorsOf, if_neg (by simp [lexicalEmbedder])]

/-- Over two runs with the vectors of the lexical embedder, the similarity of two steps is
returned, lies in the unit interval and is one on equal steps exactly when no comparison
meets a number that is too large and equal steps have a token in their reasoning. -/
theorem stepSimilarity_sound_iff (good bad : List (Step F)) :
    ∃ us vs, vectorsOf lexicalEmbedder good bad = .ok (us, vs) ∧
      ∀ (i : Fin good.length) (j : Fin bad.length), ∃ u v, us[i.val]? = some u ∧
        vs[j.val]? = some v ∧ (Sound (good.get i) (bad.get j) (u, v) ↔
          Convertible (good.get i) (bad.get j) ∧
            ((good.get i).equal (bad.get j) = true → Worded (good.get i).reasoning)) := by
  have hlength : (lexicalEmbedder ((good ++ bad).map fun step => step.reasoning)).length =
      good.length + bad.length := by simp [lexicalEmbedder]
  refine ⟨_, _, vectorsOf_lexicalEmbedder good bad, ?_⟩
  intro i j
  obtain ⟨u, hu⟩ : ∃ u, (lexicalEmbedder ((good ++ bad).map fun step => step.reasoning))[i.val]? =
      some u := ⟨_, List.getElem?_eq_getElem (by omega)⟩
  obtain ⟨v, hv⟩ : ∃ v, (lexicalEmbedder
      ((good ++ bad).map fun step => step.reasoning))[good.length + j.val]? = some v :=
    ⟨_, List.getElem?_eq_getElem (by omega)⟩
  refine ⟨u, v, ?_, ?_, ?_⟩
  · rw [List.getElem?_take_of_lt i.isLt, hu]
  · rw [List.getElem?_drop, hv]
  obtain ⟨left, vocab, hleft, hvocab, htokens, hcount⟩ := lexicalEmbedder_getElem? hu
  obtain ⟨right, vocab', hright, hvocab', -, hcount'⟩ := lexicalEmbedder_getElem? hv
  obtain rfl : left = (good.get i).reasoning := by
    rw [List.getElem?_map, List.getElem?_append_left i.isLt] at hleft
    simpa using hleft.symm
  obtain rfl : right = (bad.get j).reasoning := by
    rw [List.getElem?_map, List.getElem?_append_right (by omega), Nat.add_sub_cancel_left] at hright
    simpa using hright.symm
  subst hvocab hvocab'
  rw [sound_iff]
  · rw [← lexicalTokens_ne_nil, Ne, ← countVector_eq_zero htokens, ← hcount]
  · rw [hcount, hcount', countVector_length, countVector_length]
  · intro hequal
    rw [hcount, hcount', (Step.equal.agreeing hequal).reasoning]

end Steps

/-! Three pairs of steps that are not compared as they should be: integers of four hundred and
of five thousand digits, and a step with reasoning that has no letters of ASCII. -/

namespace Demo

/-- No text of the steps below is a number. -/
@[reducible] def noNumbers : FloatText where
  float _ := none

/-- The ratio of texts that are equal or have no character in common. -/
@[reducible] def disjoint : Matcher where
  ratio a b := if a = b then 1 else 0
  ratio_nonneg a b := (ite_mem_Icc (a = b)).1
  ratio_le_one a b := (ite_mem_Icc (a = b)).2
  ratio_self _ := if_pos rfl

/-- A step that reads around a line. -/
def readAround (line : ℤ) : Step Decimal where
  name := "read_file".toList
  args := [("around".toList, .num (.int line))]

/-- A step that replaces a number in a file. -/
def replaceNumber (old : ℤ) : Step Decimal where
  name := "edit".toList
  args := [("old".toList, .num (.int old))]

/-- A step with Chinese reasoning. -/
def chinese : Step Decimal where
  name := "read_file".toList
  args := []
  reasoning := "阅读代码".toList

end Demo

section Demo

local instance demoFloatText : FloatText := Demo.noNumbers

local instance demoMatcher : Matcher := Demo.disjoint

local instance demoLowercase : Lowercase := Localization.asciiLowercase

/-- Neither of the first two pairs can be compared, and of the last one the steps are equal but
not alike. -/
theorem stepSimilarity_unsound :
    (∀ us vs, vectorsOf lexicalEmbedder [Demo.readAround (10 ^ 400)] [Demo.readAround 1] =
        .ok (us, vs) → ∀ u v, us[0]? = some u → vs[0]? = some v →
          ¬ ∃ s, stepSimilarity {} (some (u, v)) (Demo.readAround (10 ^ 400))
            (Demo.readAround 1) = .ok s) ∧
      (∀ us vs, vectorsOf lexicalEmbedder [Demo.replaceNumber (10 ^ 5000)]
          [Demo.replaceNumber 1] = .ok (us, vs) → ∀ u v, us[0]? = some u → vs[0]? = some v →
            ¬ ∃ s, stepSimilarity {} (some (u, v)) (Demo.replaceNumber (10 ^ 5000))
              (Demo.replaceNumber 1) = .ok s) ∧
      Demo.chinese.equal Demo.chinese = true ∧
      ∀ us vs, vectorsOf lexicalEmbedder [Demo.chinese] [Demo.chinese] = .ok (us, vs) →
        ∀ u v, us[0]? = some u → vs[0]? = some v →
          stepSimilarity {} (some (u, v)) Demo.chinese Demo.chinese = .ok (80 / 100) := by
  have hequal : Demo.chinese.equal Demo.chinese = true := by decide +kernel
  refine ⟨?_, ?_, hequal, ?_⟩
  · rintro us vs - u v - - ⟨s, hs⟩
    have hconvertible := argumentSimilarity_isOk.mp (exists_arguments hs)
    have hcomparable := hconvertible rfl rfl "around".toList _ _ (by decide) rfl rfl
      (by decide +kernel)
    exact hcomparable.numbers (.inl rfl) (.inl ⟨10 ^ 400, rfl, by decide +kernel⟩)
  · rintro us vs - u v - - ⟨s, hs⟩
    have hconvertible := argumentSimilarity_isOk.mp (exists_arguments hs)
    have hcomparable := hconvertible rfl rfl "old".toList _ _ (by decide) rfl rfl
      (by decide +kernel)
    have huncompared : ¬ Compared "old".toList (.num (.int (10 ^ 5000)) : Value Decimal)
        (.num (.int 1)) := by
      rintro (hkey | hkey | ⟨hkey, -⟩)
      · exact absurd hkey (by decide)
      · exact absurd hkey (by decide)
      · exact hkey (by decide)
    exact absurd (hcomparable.texts fun h => huncompared h.1).1 (by decide +kernel)
  · intro us vs hvectors u v hu hv
    have hzero : vectorsOf lexicalEmbedder [Demo.chinese] [Demo.chinese] =
        .ok ([[0]], [[0]]) := by decide +kernel
    rw [hzero] at hvectors
    obtain ⟨rfl, rfl⟩ := Prod.mk.inj (Except.ok.inj hvectors)
    obtain rfl := Option.some.inj hu
    obtain rfl := Option.some.inj hv
    have hagreeing := Step.equal.agreeing hequal
    rw [stepSimilarity_of_ok (argumentSimilarity_of_agreeing hagreeing) (cosine_self [0]),
      known_of_agreeing hagreeing, if_pos (by simp)]
    norm_num

end Demo

end Tracewake.Alignment
