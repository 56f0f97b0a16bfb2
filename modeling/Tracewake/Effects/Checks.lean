import Mathlib.Init

/-!
# Checks in sequence

A function that refuses its input at the first check that fails. A check that passes hands
on the proof of what it checked, so the result can carry it.
-/

namespace Tracewake.Effects

variable {ε α β : Type}

/-- Refuse where the condition does not hold. -/
def check (condition : Prop) [Decidable condition] (error : ε) : Except ε (PLift condition) :=
  if h : condition then .ok ⟨h⟩ else .error error

/-- Refuse where there is no value. -/
def required (value : Option α) (error : ε) : Except ε α :=
  match value with
  | some a => .ok a
  | none => .error error

/-- A check passes where its condition holds. -/
theorem check_of {condition : Prop} [Decidable condition] {error : ε} (h : condition) :
    check condition error = .ok ⟨h⟩ := dif_pos h

/-- What is required is there. -/
theorem required_eq_ok {value : Option α} {error : ε} {a : α} :
    required value error = .ok a ↔ value = some a := by
  cases value with
  | none =>
    constructor
    · intro h
      cases h
    · intro h
      cases h
  | some b =>
    rw [required, Except.ok.injEq, Option.some.injEq]

/-- A sequence that accepts is two parts that accept. -/
theorem accepts_bind {x : Except ε α} {f : α → Except ε β} {b : β} :
    (x >>= f) = .ok b ↔ ∃ a, x = .ok a ∧ f a = .ok b := by
  cases x with
  | error e =>
    constructor
    · intro h
      cases h
    · rintro ⟨a, h, -⟩
      cases h
  | ok a =>
    constructor
    · intro h
      exact ⟨a, rfl, h⟩
    · rintro ⟨a', h, hf⟩
      cases h
      exact hf

/-- A sequence behind a check accepts where the condition holds and the rest accepts. -/
theorem accepts_check {condition : Prop} [Decidable condition] {error : ε}
    {f : PLift condition → Except ε β} {b : β} :
    (check condition error >>= f) = .ok b ↔ ∃ h : condition, f ⟨h⟩ = .ok b := by
  rw [accepts_bind]
  constructor
  · rintro ⟨⟨h⟩, -, hf⟩
    exact ⟨h, hf⟩
  · rintro ⟨h, hf⟩
    exact ⟨⟨h⟩, check_of h, hf⟩

/-- A check that goes on with what is required passes if it is there and the rest passes. -/
theorem accepts_required {value : Option α} {error : ε} {f : α → Except ε β} {b : β} :
    (required value error >>= f) = .ok b ↔ ∃ a, value = some a ∧ f a = .ok b := by
  simp only [accepts_bind, required_eq_ok]

/-- A check of every item of a list. -/
theorem accepts_forM {l : List α} {f : α → Except ε Unit} :
    l.forM f = .ok ⟨⟩ ↔ ∀ a ∈ l, f a = .ok ⟨⟩ := by
  induction l with
  | nil => simp [pure, Except.pure]
  | cons a l ih =>
    rw [List.forall_mem_cons]
    change (f a >>= fun _ => l.forM f) = .ok ⟨⟩ ↔ _
    rw [accepts_bind]
    constructor
    · rintro ⟨⟨⟩, ha, hl⟩
      exact ⟨ha, ih.mp hl⟩
    · rintro ⟨ha, hl⟩
      exact ⟨⟨⟩, ha, ih.mpr hl⟩

end Tracewake.Effects
