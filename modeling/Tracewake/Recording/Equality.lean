import Mathlib.Data.List.Forall2
import Mathlib.Data.Rat.Defs
import Tracewake.Recording.Strict

/-!
# Equality of values

`==` of the interpreter on JSON values. Numbers are compared by what they are worth, so that
an integer can equal a floating point number, and a truth value is worth zero or one.
-/

namespace Tracewake.Recording

open JsonText

/-- What a finite floating point number is worth. -/
class FloatValue (F : Type) where
  value : F → ℚ

/-- What a decimal spelling is worth. -/
instance : FloatValue Decimal where
  value x :=
    let mantissa := x.text.takeWhile fun c => c ≠ 'e' ∧ c ≠ 'E'
    let exponent := (x.text.dropWhile fun c => c ≠ 'e' ∧ c ≠ 'E').drop 1
    let whole := mantissa.takeWhile fun c => c ≠ '.'
    let fraction := (mantissa.dropWhile fun c => c ≠ '.').drop 1
    readInt (whole ++ fraction) *
      10 ^ (readInt (exponent.filter fun c => c ≠ '+') - fraction.length)

variable {F : Type} [FloatValue F]

/-- What a number is worth. -/
def Number.value : Number F → ℚ
  | .int n => n
  | .float x => FloatValue.value x

/-- What a value is worth when it is an `int`, a `float` or a `bool`. -/
def numeric : Value F → Option ℚ
  | .bool b => some (if b then 1 else 0)
  | .num n => some n.value
  | _ => none

mutual

/-- `a == b`. -/
def equal : Value F → Value F → Bool
  | .null, .null => true
  | .str a, .str b => decide (a = b)
  | .arr a, .arr b => equalItems a b
  | .obj a, .obj b => equalFields a b
  | .bool a, b => decide (numeric b = some (if a then 1 else 0))
  | .num a, b => decide (numeric b = some a.value)
  | _, _ => false

/-- Equality of lists. -/
def equalItems : List (Value F) → List (Value F) → Bool
  | [], [] => true
  | a :: as, b :: bs => equal a b && equalItems as bs
  | _, _ => false

/-- Equality of dictionaries, whose fields are in key order. -/
def equalFields : List (Text × Value F) → List (Text × Value F) → Bool
  | [], [] => true
  | (k, a) :: as, (l, b) :: bs => decide (k = l) && equal a b && equalFields as bs
  | _, _ => false

end

/-- A list of values that equal themselves equals itself. -/
theorem equalItems_refl {items : List (Value F)} (h : ∀ v ∈ items, equal v v = true) :
    equalItems items items = true := by
  induction items with
  | nil => rfl
  | cons v items ih =>
    rw [List.forall_mem_cons] at h
    rw [equalItems, h.1, ih h.2, Bool.and_self]

/-- A mapping of values that equal themselves equals itself. -/
theorem equalFields_refl {fields : List (Text × Value F)}
    (h : ∀ field ∈ fields, equal field.2 field.2 = true) :
    equalFields fields fields = true := by
  induction fields with
  | nil => rfl
  | cons field fields ih =>
    rw [List.forall_mem_cons] at h
    rw [equalFields, h.1, ih h.2, decide_eq_true rfl, Bool.and_self, Bool.and_self]

/-- A value equals itself. -/
@[simp]
theorem equal_refl (v : Value F) : equal v v = true := by
  induction v using Json.induction with
  | null => rfl
  | bool b => simp [equal, numeric]
  | num n => simp [equal, numeric]
  | str s => simp [equal]
  | arr items ih => exact equalItems_refl ih
  | obj fields ih => exact equalFields_refl ih

/-- The fields of equal dictionaries have the same keys and equal values. -/
theorem equalFields_iff {a b : List (Text × Value F)} : equalFields a b = true ↔
    List.Forall₂ (fun x y => x.1 = y.1 ∧ equal x.2 y.2 = true) a b := by
  induction a generalizing b with
  | nil => cases b <;> simp [equalFields]
  | cons x a ih =>
    cases b with
    | nil => simp [equalFields]
    | cons y b => simp [equalFields, ih]

end Tracewake.Recording
