import Tracewake.Alignment.Gotoh
import Tracewake.Reports.Payload

/-!
# Where a run diverges

The step of the failure run at which an alignment stops agreeing for good. Agreements inside a
trailing loop of identical steps do not count. The columns of an alignment name the failure
steps in order, so the answer only depends on the last step that counts.
-/

namespace Tracewake.Alignment

open Recording JsonText
open Reports (targetAgree)

variable {F : Type} [FloatValue F]

/-- `steps[start - 1].name == last.name and steps[start - 1].args == last.args`. -/
def sameAction (a b : Step F) : Bool :=
  decide (a.name = b.name) && equalFields a.args b.args

/-- The loop of `_trailing_identical_loop_start`. -/
def loopStart (steps : List (Step F)) (last : Step F) : ℕ → ℕ
  | 0 => 0
  | start + 1 =>
    if steps[start]?.any (sameAction · last) then loopStart steps last start else start + 1

/-- `_trailing_identical_loop_start`. -/
def trailingIdenticalLoopStart (steps : List (Step F)) : Option ℕ :=
  match steps.getLast? with
  | none => none
  | some last =>
    let start := loopStart steps last (steps.length - 1)
    if steps.length < 2 ∨ start = steps.length - 1 then none else some start

/-- What `divergence_step` raises. -/
inductive DivergenceError where
  /-- `the failure run has no steps to locate a divergence in`. -/
  | valueError
  | indexError
  deriving DecidableEq

/-- Whether a column is an agreement that counts. -/
def agrees (loopStart : Option ℕ) (good bad : List (Step F)) :
    Column → Except DivergenceError Bool
  | (some i, some j) =>
    if loopStart.any (· ≤ j) then .ok false
    else
      match good[i]?, bad[j]? with
      | some left, some right => .ok (targetAgree left right)
      | _, _ => .error .indexError
  | _ => .ok false

/-- The first loop of `divergence_step`, which holds `last_agree + 1`. -/
def scanAgreements (loopStart : Option ℕ) (good bad : List (Step F)) (k next : ℕ) :
    List Column → Except DivergenceError ℕ
  | [] => .ok next
  | column :: columns => do
    let agree ← agrees loopStart good bad column
    scanAgreements loopStart good bad (k + 1) (if agree then k + 1 else next) columns

/-- `divergence_step`. -/
def divergenceStep (alignment : List Column) (good bad : List (Step F)) :
    Except DivergenceError (Option ℕ) :=
  if bad = [] then .error .valueError
  else do
    let next ← scanAgreements (trailingIdenticalLoopStart bad) good bad 0 0 alignment
    match ((alignment.drop next).filterMap Prod.snd).head? with
    | some j => return some (j + 1)
    | none => return if next = 0 then some 1 else none

/-! ## Loops -/

variable {good bad steps : List (Step F)} {columns : List Column}

/-- The last two steps are identical. -/
def EndsInLoop (steps : List (Step F)) : Prop :=
  ∃ front a b, steps = front ++ [a, b] ∧ sameAction a b = true

/-- A trailing loop begins no later than where the search for it stands. -/
theorem loopStart_le (steps : List (Step F)) (last : Step F) (start : ℕ) :
    loopStart steps last start ≤ start := by
  induction start with
  | zero => exact le_refl 0
  | succ start ih =>
    rw [loopStart]
    split
    · omega
    · exact le_refl _

/-- There is a trailing loop exactly when the last two steps are identical. -/
theorem trailingIdenticalLoopStart_isSome :
    (trailingIdenticalLoopStart steps).isSome = true ↔ EndsInLoop steps := by
  rcases List.eq_nil_or_concat' steps with rfl | ⟨front, last, rfl⟩
  · refine iff_of_false (by simp [trailingIdenticalLoopStart]) ?_
    rintro ⟨front, a, b, heq, -⟩
    simp at heq
  rcases List.eq_nil_or_concat' front with rfl | ⟨front, before, rfl⟩
  · refine iff_of_false (by simp [trailingIdenticalLoopStart]) ?_
    rintro ⟨front, a, b, heq, -⟩
    simpa using congrArg List.length heq
  have hlast : (front ++ [before] ++ [last]).getLast? = some last := by simp
  have hlength : (front ++ [before] ++ [last]).length - 1 = front.length + 1 := by simp
  have hbefore : (front ++ [before] ++ [last])[front.length]? = some before := by simp
  have hloop : loopStart (front ++ [before] ++ [last]) last (front.length + 1) =
      front.length + 1 ↔ sameAction before last = false := by
    rw [loopStart, hbefore, Option.any_some]
    cases sameAction before last with
    | false => simp
    | true =>
      have hle := loopStart_le (front ++ [before] ++ [last]) last front.length
      simp only [if_true, Bool.true_eq_false, iff_false]
      omega
  have hends : EndsInLoop (front ++ [before] ++ [last]) ↔ sameAction before last = true := by
    constructor
    · rintro ⟨front', a, b, heq, hsame⟩
      rw [List.append_assoc] at heq
      obtain ⟨-, htail⟩ := List.append_inj' heq rfl
      simp only [List.cons_append, List.nil_append, List.cons.injEq, and_true] at htail
      obtain ⟨rfl, rfl⟩ := htail
      exact hsame
    · intro hsame
      exact ⟨front, before, last, by simp, hsame⟩
  rw [trailingIdenticalLoopStart, hlast]
  simp only [hlength, hends]
  have htwo : ¬ (front ++ [before] ++ [last]).length < 2 := by simp
  simp only [htwo, false_or, hloop]
  cases sameAction before last <;> simp

/-- A trailing loop starts at a step that has another one after it. -/
theorem trailingIdenticalLoopStart_lt {start : ℕ}
    (h : trailingIdenticalLoopStart steps = some start) : start + 1 < steps.length := by
  unfold trailingIdenticalLoopStart at h
  split at h
  · cases h
  · next last hlast =>
    have hle := loopStart_le steps last (steps.length - 1)
    simp only at h
    split at h
    · cases h
    · next hloop =>
      obtain rfl := Option.some.inj h
      omega

/-! ## The last agreement -/

/-- A failure step is in an agreement that counts. -/
def Agreed (columns : List Column) (good bad : List (Step F)) (j : ℕ) : Prop :=
  ∃ i left right, (some i, some j) ∈ columns ∧ good[i]? = some left ∧ bad[j]? = some right ∧
    targetAgree left right = true ∧ ∀ start ∈ trailingIdenticalLoopStart bad, j < start

omit [FloatValue F] in
/-- The loop finds the end of the columns up to the last agreement. -/
theorem scanAgreements_spec {loopStart : Option ℕ} (k next : ℕ)
    (h : ∀ column ∈ columns, ∃ agree, agrees loopStart good bad column = .ok agree) :
    ∃ front tail, columns = front ++ tail ∧
      (∀ column ∈ tail, agrees loopStart good bad column = .ok false) ∧
      (front = [] ∧ scanAgreements loopStart good bad k next columns = .ok next ∨
        ∃ rest column, front = rest ++ [column] ∧
          agrees loopStart good bad column = .ok true ∧
          scanAgreements loopStart good bad k next columns = .ok (k + front.length)) := by
  induction columns generalizing k next with
  | nil => exact ⟨[], [], rfl, by simp, .inl ⟨rfl, rfl⟩⟩
  | cons column columns ih =>
    obtain ⟨agree, hagree⟩ := h column List.mem_cons_self
    have hscan : scanAgreements loopStart good bad k next (column :: columns) =
        scanAgreements loopStart good bad (k + 1) (if agree then k + 1 else next) columns := by
      rw [scanAgreements, hagree]
      rfl
    rw [hscan]
    obtain ⟨front, tail, rfl, htail, ⟨rfl, hresult⟩ | ⟨rest, last, rfl, hlast, hresult⟩⟩ :=
      ih (k + 1) (if agree then k + 1 else next)
        fun other hother => h other (List.mem_cons_of_mem column hother)
    · cases agree with
      | false =>
        refine ⟨[], column :: tail, rfl, ?_, .inl ⟨rfl, hresult⟩⟩
        intro other hother
        rcases List.mem_cons.mp hother with rfl | hmem
        · exact hagree
        · exact htail other hmem
      | true => exact ⟨[column], tail, rfl, htail, .inr ⟨[], column, rfl, hagree, hresult⟩⟩
    · refine ⟨column :: (rest ++ [last]), tail, rfl, htail, .inr ⟨column :: rest, last, rfl, hlast, ?_⟩⟩
      rw [hresult, List.length_cons]
      congr 1
      omega

/-- Two steps that agree have the same target and stand before the trailing loop. -/
theorem agrees_true {column : Column}
    (h : agrees (trailingIdenticalLoopStart bad) good bad column = .ok true)
    (hmem : column ∈ columns) : ∃ i j, column = (some i, some j) ∧ Agreed columns good bad j := by
  unfold agrees at h
  split at h
  · next i j =>
    split at h
    · cases h
    · next hloop =>
      split at h
      · next left right hleft hright =>
        refine ⟨i, j, rfl, i, left, right, hmem, hleft, hright, Except.ok.inj h, ?_⟩
        intro start hstart
        obtain heq := Option.mem_def.mp hstart
        rw [heq, Option.any_some, decide_eq_true_eq] at hloop
        omega
      · cases h
  · cases h

/-- Steps with one target that stand before the trailing loop agree. -/
theorem agrees_of_agreed {i j : ℕ} {left right : Step F} (hleft : good[i]? = some left)
    (hright : bad[j]? = some right) (hagree : targetAgree left right = true)
    (hloop : ∀ start ∈ trailingIdenticalLoopStart bad, j < start) :
    agrees (trailingIdenticalLoopStart bad) good bad (some i, some j) = .ok true := by
  have hany : (trailingIdenticalLoopStart bad).any (fun start => decide (start ≤ j)) = false := by
    rw [Option.any_eq_false]
    intro start hstart
    have hlt := hloop start hstart
    rw [decide_eq_false_iff_not]
    omega
  rw [agrees, hany, hleft, hright]
  simp [hagree]

/-- The indices of an alignment belong to steps. -/
theorem agrees_isOk (h : IsAlignment good.length bad.length columns) {column : Column}
    (hmem : column ∈ columns) :
    ∃ agree, agrees (trailingIdenticalLoopStart bad) good bad column = .ok agree := by
  unfold agrees
  split
  · next i j =>
    have hi : i ∈ List.range good.length := by
      rw [← h.left]
      exact List.mem_filterMap.mpr ⟨_, hmem, rfl⟩
    have hj : j ∈ List.range bad.length := by
      rw [← h.right]
      exact List.mem_filterMap.mpr ⟨_, hmem, rfl⟩
    rw [List.mem_range] at hi hj
    rw [List.getElem?_eq_getElem hi, List.getElem?_eq_getElem hj]
    split
    · exact ⟨false, rfl⟩
    · exact ⟨_, rfl⟩
  · exact ⟨false, rfl⟩

/-- The divergence of an alignment is the failure step after the last one that counts, and
there is none when that is the last step of the run. -/
theorem divergenceStep_eq (h : IsAlignment good.length bad.length columns) (hne : bad ≠ []) :
    ∃ recovered ≤ bad.length, (∀ j, Agreed columns good bad j → j < recovered) ∧
      (recovered = 0 ∨ Agreed columns good bad (recovered - 1)) ∧
      divergenceStep columns good bad =
        .ok (if recovered < bad.length then some (recovered + 1) else none) := by
  obtain ⟨front, tail, hsplit, htail, hscan⟩ :=
    scanAgreements_spec 0 0 fun column hcolumn => agrees_isOk h hcolumn
  have hnext : scanAgreements (trailingIdenticalLoopStart bad) good bad 0 0 columns =
      .ok front.length := by
    rcases hscan with ⟨rfl, hresult⟩ | ⟨_, _, _, _, hresult⟩
    · exact hresult
    · rw [hresult, Nat.zero_add]
  -- The failure steps of the columns up to the last agreement are an initial segment.
  have hright := h.right
  rw [hsplit, List.filterMap_append] at hright
  have hcount : (front.filterMap Prod.snd).length ≤ bad.length := by
    have hlength := congrArg List.length hright
    rw [List.length_append, List.length_range] at hlength
    omega
  have hfront : front.filterMap Prod.snd = List.range (front.filterMap Prod.snd).length := by
    have htake := congrArg (List.take (front.filterMap Prod.snd).length) hright
    rwa [List.take_left, List.take_range, min_eq_left hcount] at htake
  have hrest : (tail.filterMap Prod.snd).head? =
      if (front.filterMap Prod.snd).length < bad.length
        then some (front.filterMap Prod.snd).length else none := by
    have hget := congrArg (fun l : List ℕ => l[(front.filterMap Prod.snd).length]?) hright
    simp only [List.getElem?_append_right le_rfl, Nat.sub_self] at hget
    rw [List.head?_eq_getElem?, hget]
    split
    · next hlt => exact List.getElem?_range hlt
    · next hall => exact List.getElem?_eq_none (by simpa using hall)
  refine ⟨(front.filterMap Prod.snd).length, hcount, ?_, ?_, ?_⟩
  · rintro j ⟨i, left, right, hmem, hleft, hright, hagree, hloop⟩
    have htrue := agrees_of_agreed hleft hright hagree hloop
    rw [hsplit, List.mem_append] at hmem
    rcases hmem with hmem | hmem
    · rw [← List.mem_range, ← hfront]
      exact List.mem_filterMap.mpr ⟨_, hmem, rfl⟩
    · rw [htail _ hmem] at htrue
      cases htrue
  · rcases hscan with ⟨rfl, -⟩ | ⟨rest, column, rfl, htrue, -⟩
    · exact .inl rfl
    · right
      have hmem : column ∈ columns := by simp [hsplit]
      obtain ⟨i, j, rfl, hagreed⟩ := agrees_true htrue hmem
      have hlast : j = (rest.filterMap Prod.snd).length := by
        have hget := congrArg (fun l : List ℕ => l[(rest.filterMap Prod.snd).length]?) hfront
        simpa using hget
      simpa [hlast] using hagreed
  · rw [divergenceStep, if_neg hne, hnext]
    simp only [bind, Except.bind, hsplit, List.drop_left, hrest]
    split
    · next j hj =>
      split at hj
      · next hlt =>
        obtain rfl := Option.some.inj hj
        rw [if_pos hlt]
        rfl
      · cases hj
    · next hnone =>
      split at hnone
      · cases hnone
      · next hall =>
        have hpos : 0 < bad.length := List.length_pos_iff.mpr hne
        rw [if_neg hall, if_neg]
        · rfl
        · intro hzero
          rw [List.length_eq_zero_iff.mp hzero] at hall
          simp only [List.filterMap_nil, List.length_nil] at hall
          omega

end Tracewake.Alignment
