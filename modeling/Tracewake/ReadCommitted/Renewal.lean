import Mathlib.Data.Int.Order.Basic
import Mathlib.Logic.Function.Basic
import Mathlib.Logic.Relation

/-!
# Reading a row and renewing it later

Callers read one row and later update it in a second statement, on the condition that the
columns they compared are unchanged. The update brings outdated columns up to date. Each
statement is about one row and takes effect at one moment: an update that had to wait
evaluates its condition again on the newest version. A caller whose condition fails is
refused, so what can go wrong is that two callers read the same outdated columns.
-/

namespace Tracewake.ReadCommitted.Renewal

variable {ρ ν α : Type}

/-- What a caller does after its read: it has its result, or it will compare columns and
return a result if its update finds the row. -/
inductive Reading (ν α : Type) where
  | finished (result : α)
  | pending (compared : ν) (result : α)

/-- The two statements of a caller, at the transaction timestamp of each. -/
structure Caller (ρ ν α : Type) where
  read : ρ → ℤ → Reading ν α
  update : ρ → ℤ → ν → Option ρ

/-- How far a caller is. -/
inductive Progress (ν α : Type) where
  | waiting
  | pending (compared : ν) (result : α)
  | finished (result : α)
  deriving DecidableEq

/-- The row, the clock, and how far each caller is. -/
structure State (ρ ν α : Type) where
  row : ρ
  clock : ℤ
  progress : ℕ → Progress ν α

/-- What happens next: time passes, or a caller runs its next statement. -/
inductive Event where
  | tick (elapsed : ℕ)
  | run (caller : ℕ)

/-- How far a caller is after its read. -/
def Reading.progress : Reading ν α → Progress ν α
  | .finished result => .finished result
  | .pending compared result => .pending compared result

/-- The effect of an event. A caller whose update finds no row is refused. -/
def step (callers : ℕ → Caller ρ ν α) (refused : α) (s : State ρ ν α) : Event → State ρ ν α
  | .tick elapsed => { s with clock := s.clock + elapsed }
  | .run c =>
    match s.progress c with
    | .waiting =>
      { s with
        progress := Function.update s.progress c ((callers c).read s.row s.clock).progress }
    | .pending compared result =>
      match (callers c).update s.row s.clock compared with
      | some row =>
        { s with row := row, progress := Function.update s.progress c (.finished result) }
      | none => { s with progress := Function.update s.progress c (.finished refused) }
    | .finished _ => s

/-- What the callers guarantee: `version` is the columns they compare, `granted` the result
that each should have, `Good` what holds of the row, and `Live` that it may be read. -/
structure Renews (callers : ℕ → Caller ρ ν α) (version : ρ → ν) (Outdated : ν → Prop)
    (granted : ℕ → α) (Good : ρ → Prop) (Live : ρ → ℤ → Prop) : Prop where
  read : ∀ c row now, Good row → Live row now →
    (callers c).read row now = .finished (granted c) ∨
      (callers c).read row now = .pending (version row) (granted c)
  miss : ∀ c row now compared, Good row → version row ≠ compared →
    (callers c).update row now compared = none
  hit : ∀ c row now, Good row → ∃ row',
    (callers c).update row now (version row) = some row' ∧ Good row' ∧
      (∀ later, Live row later → Live row' later) ∧ ¬ Outdated (version row') ∧
      (¬ Outdated (version row) → version row' = version row)

section Runs

variable (callers : ℕ → Caller ρ ν α) (refused : α) (Outdated : ν → Prop) (Live : ρ → ℤ → Prop)

/-- A step within the lifetime of the row. -/
def LiveStep (s t : State ρ ν α) : Prop :=
  ∃ event, t = step callers refused s event ∧ Live t.row t.clock

/-- Caller `c` is about to compare outdated columns. -/
def Renewing (s : State ρ ν α) (c : ℕ) : Prop :=
  ∃ compared result, s.progress c = .pending compared result ∧ Outdated compared

/-- The event is not the renewal of a row that another caller has read outdated and is yet
to renew. -/
def Calm (s : State ρ ν α) (event : Event) : Prop :=
  ∀ c, event = .run c → Renewing Outdated s c → ∀ d, Renewing Outdated s d → d = c

/-- A step within the lifetime of the row that is calm. -/
def CalmStep (s t : State ρ ν α) : Prop :=
  ∃ event, Calm Outdated s event ∧ t = step callers refused s event ∧ Live t.row t.clock

end Runs

section Invariants

variable {callers : ℕ → Caller ρ ν α} {refused : α} {version : ρ → ν} {Outdated : ν → Prop}
  {granted : ℕ → α} {Good : ρ → Prop} {Live : ρ → ℤ → Prop}

/-- What a caller that is not disturbed can be at: its result is the one granted, and the
columns that it compares are those of the row. -/
def Undisturbed (version : ρ → ν) (granted : ℕ → α) (row : ρ) (c : ℕ) : Progress ν α → Prop
  | .waiting => True
  | .pending compared result => compared = version row ∧ result = granted c
  | .finished result => result = granted c

/-- What a caller can be at in any run: the columns that it compares are those of the row,
or they are outdated and those of the row are not. -/
def Consistent (version : ρ → ν) (Outdated : ν → Prop) (row : ρ) : Progress ν α → Prop
  | .waiting => True
  | .pending compared _ =>
    compared = version row ∨ Outdated compared ∧ ¬ Outdated (version row)
  | .finished _ => True

/-- What holds in every state of every run. -/
structure Invariant (version : ρ → ν) (Outdated : ν → Prop) (Good : ρ → Prop)
    (Live : ρ → ℤ → Prop) (s : State ρ ν α) : Prop where
  good : Good s.row
  live : Live s.row s.clock
  consistent : ∀ c, Consistent version Outdated s.row (s.progress c)

variable (refused) in
/-- The update of a caller finds the columns that it compares, or the caller is refused. -/
theorem step_pending (h : Renews callers version Outdated granted Good Live)
    {s : State ρ ν α} (hgood : Good s.row) {c : ℕ} {compared : ν} {result : α}
    (hprogress : s.progress c = .pending compared result) :
    (compared = version s.row ∧ ∃ row, step callers refused s (.run c) =
        ⟨row, s.clock, Function.update s.progress c (.finished result)⟩ ∧
      Good row ∧ (∀ later, Live s.row later → Live row later) ∧ ¬ Outdated (version row) ∧
      (¬ Outdated (version s.row) → version row = version s.row)) ∨
    (compared ≠ version s.row ∧ step callers refused s (.run c) =
      ⟨s.row, s.clock, Function.update s.progress c (.finished refused)⟩) := by
  by_cases hsame : compared = version s.row
  · obtain ⟨row, hupdate, hrow⟩ := h.hit c s.row s.clock hgood
    refine .inl ⟨hsame, row, ?_, hrow⟩
    simp only [step, hprogress, hsame, hupdate]
  · have hmiss := h.miss c s.row s.clock compared hgood (Ne.symm hsame)
    refine .inr ⟨hsame, ?_⟩
    simp only [step, hprogress, hmiss]

variable (refused) in
/-- A caller's read leaves it with the columns of the row, or with its result. -/
theorem step_waiting (h : Renews callers version Outdated granted Good Live)
    {s : State ρ ν α} (hgood : Good s.row) (hlive : Live s.row s.clock) {c : ℕ}
    (hprogress : s.progress c = .waiting) : ∃ progress, step callers refused s (.run c) =
        ⟨s.row, s.clock, Function.update s.progress c progress⟩ ∧
      (progress = .finished (granted c) ∨
        progress = .pending (version s.row) (granted c)) := by
  refine ⟨((callers c).read s.row s.clock).progress, by simp only [step, hprogress], ?_⟩
  rcases h.read c s.row s.clock hgood hlive with hread | hread
  · exact .inl (by rw [hread]; rfl)
  · exact .inr (by rw [hread]; rfl)

/-- A caller that has finished takes no further step. -/
theorem step_finished {s : State ρ ν α} {c : ℕ} {result : α}
    (hprogress : s.progress c = .finished result) : step callers refused s (.run c) = s := by
  simp only [step, hprogress]

/-- What holds of every caller holds after one caller has moved. -/
theorem forall_update (P : ℕ → Progress ν α → Prop) {progress : ℕ → Progress ν α} {c : ℕ}
    {new : Progress ν α} (hnew : P c new) (hothers : ∀ d, d ≠ c → P d (progress d)) (d : ℕ) :
    P d (Function.update progress c new d) := by
  by_cases hd : d = c
  · subst hd
    rw [Function.update_self]
    exact hnew
  · rw [Function.update_of_ne hd]
    exact hothers d hd

/-- A renewal of the row outdates the columns that others have read. -/
theorem Consistent.renewed {row row' : ρ} (hfresh : ¬ Outdated (version row'))
    (hsame : ¬ Outdated (version row) → version row' = version row) {progress : Progress ν α}
    (h : Consistent version Outdated row progress) :
    Consistent version Outdated row' progress := by
  cases progress with
  | waiting => trivial
  | finished result => trivial
  | pending compared result =>
    by_cases hrow : Outdated (version row)
    · rcases h with rfl | ⟨_, hnot⟩
      · exact .inr ⟨hrow, hfresh⟩
      · exact absurd hrow hnot
    · rcases h with rfl | ⟨houtdated, _⟩
      · exact .inl (hsame hrow).symm
      · exact .inr ⟨houtdated, hfresh⟩

/-- One step preserves the invariant. -/
theorem Invariant.step (h : Renews callers version Outdated granted Good Live)
    {s t : State ρ ν α} (hs : Invariant version Outdated Good Live s)
    (hstep : LiveStep callers refused Live s t) : Invariant version Outdated Good Live t := by
  obtain ⟨event, rfl, hlive⟩ := hstep
  cases event with
  | tick elapsed => exact ⟨hs.good, hlive, hs.consistent⟩
  | run c =>
    cases hprogress : s.progress c with
    | waiting =>
      obtain ⟨progress, heq, hread⟩ := step_waiting refused h hs.good hs.live hprogress
      rw [heq] at hlive ⊢
      refine ⟨hs.good, hlive, forall_update (fun _ => Consistent version Outdated s.row) ?_
        fun d _ => hs.consistent d⟩
      rcases hread with rfl | rfl
      · trivial
      · exact .inl rfl
    | finished result =>
      rw [step_finished hprogress]
      exact hs
    | pending compared result =>
      rcases step_pending refused h hs.good hprogress with
        ⟨_, row, heq, hgood, _, hfresh, hsame⟩ | ⟨_, heq⟩
      · rw [heq] at hlive ⊢
        exact ⟨hgood, hlive, forall_update (fun _ => Consistent version Outdated row) trivial
          fun d _ => (hs.consistent d).renewed hfresh hsame⟩
      · rw [heq] at hlive ⊢
        exact ⟨hs.good, hlive, forall_update (fun _ => Consistent version Outdated s.row) trivial
          fun d _ => hs.consistent d⟩

/-- The invariant holds in every state that a run reaches. -/
theorem Invariant.run (h : Renews callers version Outdated granted Good Live)
    {s t : State ρ ν α} (hs : Invariant version Outdated Good Live s)
    (hrun : Relation.ReflTransGen (LiveStep callers refused Live) s t) :
    Invariant version Outdated Good Live t := by
  induction hrun with
  | refl => exact hs
  | tail _ hstep ih => exact ih.step h hstep

/-- What also holds in every state of a calm run: no caller is disturbed. -/
structure CalmInvariant (version : ρ → ν) (granted : ℕ → α) (Good : ρ → Prop)
    (Live : ρ → ℤ → Prop) (s : State ρ ν α) : Prop where
  good : Good s.row
  live : Live s.row s.clock
  undisturbed : ∀ c, Undisturbed version granted s.row c (s.progress c)

/-- One calm step preserves the invariant of calm runs. -/
theorem CalmInvariant.step (h : Renews callers version Outdated granted Good Live)
    {s t : State ρ ν α} (hs : CalmInvariant version granted Good Live s)
    (hstep : CalmStep callers refused Outdated Live s t) :
    CalmInvariant version granted Good Live t := by
  obtain ⟨event, hcalm, rfl, hlive⟩ := hstep
  cases event with
  | tick elapsed => exact ⟨hs.good, hlive, hs.undisturbed⟩
  | run c =>
    cases hprogress : s.progress c with
    | waiting =>
      obtain ⟨progress, heq, hread⟩ := step_waiting refused h hs.good hs.live hprogress
      rw [heq] at hlive ⊢
      refine ⟨hs.good, hlive, forall_update (Undisturbed version granted s.row) ?_
        fun d _ => hs.undisturbed d⟩
      rcases hread with rfl | rfl
      · rfl
      · exact ⟨rfl, rfl⟩
    | finished result =>
      rw [step_finished hprogress]
      exact hs
    | pending compared result =>
      have hc := hs.undisturbed c
      rw [hprogress] at hc
      obtain ⟨hcompared, hresult⟩ := hc
      rcases step_pending refused h hs.good hprogress with
        ⟨_, row, heq, hgood, _, hfresh, hsame⟩ | ⟨hdiffers, _⟩
      · rw [heq] at hlive ⊢
        refine ⟨hgood, hlive, forall_update (Undisturbed version granted row) hresult
          fun d hd => ?_⟩
        have hother := hs.undisturbed d
        cases hprogress' : s.progress d with
        | waiting => trivial
        | finished result' =>
          rw [hprogress'] at hother
          exact hother
        | pending compared' result' =>
          rw [hprogress'] at hother
          refine ⟨?_, hother.2⟩
          -- Had the row been outdated, both callers would be renewing it.
          have hrow : ¬ Outdated (version s.row) := by
            intro houtdated
            exact hd (hcalm c rfl ⟨compared, result, hprogress, hcompared ▸ houtdated⟩ d
              ⟨compared', result', hprogress', hother.1 ▸ houtdated⟩)
          rw [hsame hrow]
          exact hother.1
      · exact absurd hcompared hdiffers

/-- In every state that a calm run reaches each caller that has finished has its result. -/
theorem CalmInvariant.run (h : Renews callers version Outdated granted Good Live)
    {s t : State ρ ν α} (hs : CalmInvariant version granted Good Live s)
    (hrun : Relation.ReflTransGen (CalmStep callers refused Outdated Live) s t) :
    CalmInvariant version granted Good Live t := by
  induction hrun with
  | refl => exact hs
  | tail _ hstep ih => exact ih.step h hstep

/-- A step that is not calm leaves a caller behind that its next statement refuses. -/
theorem refused_of_not_calm (h : Renews callers version Outdated granted Good Live)
    {s : State ρ ν α} (hs : Invariant version Outdated Good Live s) {event : Event}
    (hcalm : ¬ Calm Outdated s event) :
    ∃ d, (step callers refused (step callers refused s event) (.run d)).progress d =
      .finished refused := by
  simp only [Calm, not_forall] at hcalm
  obtain ⟨c, rfl, ⟨compared, result, hprogress, houtdated⟩, d,
    ⟨compared', result', hprogress', houtdated'⟩, hd⟩ := hcalm
  refine ⟨d, ?_⟩
  -- After the step the columns of the row are no longer those that `d` has read.
  have hkept (progress : Progress ν α) :
      Function.update s.progress c progress d = .pending compared' result' := by
    rw [Function.update_of_ne hd, hprogress']
  rcases step_pending refused h hs.good hprogress with
    ⟨_, row, heq, hgood, _, hfresh, _⟩ | ⟨hdiffers, heq⟩
  · rw [heq]
    have hmiss : compared' ≠ version row := fun hsame => hfresh (hsame ▸ houtdated')
    rcases step_pending (s := ⟨row, s.clock, Function.update s.progress c (.finished result)⟩)
      refused h hgood (hkept _) with ⟨hsame, _⟩ | ⟨_, heq'⟩
    · exact absurd hsame hmiss
    · rw [heq']
      exact Function.update_self ..
  · rw [heq]
    have hrow : ¬ Outdated (version s.row) := by
      have hc := hs.consistent c
      rw [hprogress] at hc
      rcases hc with hsame | ⟨_, hnot⟩
      · exact absurd hsame hdiffers
      · exact hnot
    have hmiss : compared' ≠ version s.row := fun hsame => hrow (hsame ▸ houtdated')
    rcases step_pending (s := ⟨s.row, s.clock, Function.update s.progress c (.finished refused)⟩)
      refused h hs.good (hkept _) with ⟨hsame, _⟩ | ⟨_, heq'⟩
    · exact absurd hsame hmiss
    · rw [heq']
      exact Function.update_self ..

/-- A caller has finished after its two statements, whatever others do. -/
theorem finished_of_two (callers : ℕ → Caller ρ ν α) (refused : α) (s : State ρ ν α) (c : ℕ) :
    ∃ result, (step callers refused (step callers refused s (.run c)) (.run c)).progress c =
      .finished result := by
  have hpending : ∀ (t : State ρ ν α) compared result, t.progress c = .pending compared result →
      ∃ result, (step callers refused t (.run c)).progress c = .finished result := by
    intro t compared result hprogress
    cases hupdate : (callers c).update t.row t.clock compared with
    | some row => exact ⟨result, by simp [step, hprogress, hupdate]⟩
    | none => exact ⟨refused, by simp [step, hprogress, hupdate]⟩
  have hdone : ∀ (t : State ρ ν α) result, t.progress c = .finished result →
      ∃ result, (step callers refused t (.run c)).progress c = .finished result := by
    intro t result hprogress
    exact ⟨result, by rw [step_finished hprogress, hprogress]⟩
  cases hprogress : s.progress c with
  | waiting =>
    cases hread : (callers c).read s.row s.clock with
    | finished result =>
      exact hdone _ result (by simp [step, hprogress, hread, Reading.progress])
    | pending compared result =>
      exact hpending _ compared result (by simp [step, hprogress, hread, Reading.progress])
  | pending compared result =>
    obtain ⟨result, hfinished⟩ := hpending s compared result hprogress
    exact hdone _ result hfinished
  | finished result =>
    rw [step_finished hprogress]
    exact hdone s result hprogress

/-- What renewal promises of all runs from a row that no caller has read yet. -/
structure Promises (callers : ℕ → Caller ρ ν α) (refused : α) (Outdated : ν → Prop)
    (granted : ℕ → α) (Good : ρ → Prop) (Live : ρ → ℤ → Prop) (start : State ρ ν α) :
    Prop where
  /-- The row stays as it should be. -/
  good : ∀ s, Relation.ReflTransGen (LiveStep callers refused Live) start s → Good s.row
  /-- Every caller finishes. -/
  finishes : ∀ s c, ∃ result,
    (step callers refused (step callers refused s (.run c)) (.run c)).progress c =
      .finished result
  /-- In a calm run every caller finishes with what it is granted. -/
  granted : ∀ s, Relation.ReflTransGen (CalmStep callers refused Outdated Live) start s →
    ∀ c result, s.progress c = .finished result → result = granted c
  /-- After a step that is not calm a caller is refused at its next statement. -/
  refused : ∀ s event, Relation.ReflTransGen (LiveStep callers refused Live) start s →
    ¬ Calm Outdated s event →
      ∃ d, (step callers refused (step callers refused s event) (.run d)).progress d =
        .finished refused

/-- A contract of renewal holds its promises in the state in which no caller has begun. -/
theorem Renews.promises (h : Renews callers version Outdated granted Good Live) (refused : α)
    {row : ρ} {clock : ℤ} (hgood : Good row) (hlive : Live row clock) :
    Promises callers refused Outdated granted Good Live ⟨row, clock, fun _ => .waiting⟩ := by
  have hstart : Invariant version Outdated Good Live
      (⟨row, clock, fun _ => .waiting⟩ : State ρ ν α) := ⟨hgood, hlive, fun _ => trivial⟩
  have hcalm : CalmInvariant version granted Good Live
      (⟨row, clock, fun _ => .waiting⟩ : State ρ ν α) := ⟨hgood, hlive, fun _ => trivial⟩
  constructor
  · intro s hrun
    exact (hstart.run h hrun).good
  · exact finished_of_two callers refused
  · intro s hrun c result hprogress
    have hc := (hcalm.run h hrun).undisturbed c
    rw [hprogress] at hc
    exact hc
  · intro s event hrun hnot
    exact refused_of_not_calm h (hstart.run h hrun) hnot

end Invariants

end Tracewake.ReadCommitted.Renewal
