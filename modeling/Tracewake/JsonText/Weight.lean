import Mathlib.Algebra.BigOperators.Group.List.Basic
import Mathlib.Algebra.GroupWithZero.Nat
import Mathlib.Algebra.Order.Group.Nat
import Tracewake.JsonText.Print

/-!
# How long printed values are

The length of a text, where every character counts with a weight of its own: its bytes, or
what stands for it elsewhere. The length of a printed value is made of those of its parts.
-/

namespace Tracewake.JsonText

/-- The length of a text whose characters count with their weight. -/
def weigh (weight : Char → ℕ) (text : Text) : ℕ :=
  (text.map weight).sum

/-- What the printer writes of its own accord counts one for each character, and every other
character counts at least one. -/
structure Plain (weight : Char → ℕ) : Prop where
  punctuation : ∀ c ∈ Json.punctuation, weight c = 1
  digit : ∀ c, c.isDigit = true → weight c = 1
  pos : ∀ c, 1 ≤ weight c

section Weigh

variable {weight : Char → ℕ}

/-- The empty text weighs nothing. -/
@[simp]
theorem weigh_nil : weigh weight [] = 0 := rfl

/-- A text weighs what its characters weigh. -/
@[simp]
theorem weigh_cons (c : Char) (text : Text) :
    weigh weight (c :: text) = weight c + weigh weight text := by
  simp [weigh]

/-- Texts weigh together what they weigh alone. -/
@[simp]
theorem weigh_append (a b : Text) : weigh weight (a ++ b) = weigh weight a + weigh weight b := by
  simp [weigh]

/-- Where every character counts one, the length is the usual one. -/
theorem weigh_eq_length {text : Text} (h : ∀ c ∈ text, weight c = 1) :
    weigh weight text = text.length := by
  induction text with
  | nil => rfl
  | cons c text ih =>
    rw [List.forall_mem_cons] at h
    rw [weigh_cons, h.1, ih h.2, List.length_cons]
    omega

/-- Where every character weighs something, a text weighs at least its length. -/
theorem Plain.length_le (h : Plain weight) (text : Text) : text.length ≤ weigh weight text := by
  induction text with
  | nil => exact le_rfl
  | cons c text ih =>
    have hc := h.pos c
    rw [weigh_cons, List.length_cons]
    omega

end Weigh

/-! ## Numbers of digits -/

/-- The number of decimal digits. -/
def digitCount (n : ℕ) : ℕ := (Nat.toDigits 10 n).length

/-- A number has few digits exactly if it is small. -/
theorem digitCount_le_iff {n k : ℕ} (hk : 0 < k) : digitCount n ≤ k ↔ n < 10 ^ k :=
  Nat.length_toDigits_le_iff (by decide) hk

/-- Every number has a digit. -/
theorem digitCount_pos (n : ℕ) : 0 < digitCount n := Nat.length_toDigits_pos

/-- A larger number has at least as many digits. -/
theorem digitCount_mono {m n : ℕ} (h : m ≤ n) : digitCount m ≤ digitCount n := by
  rw [digitCount_le_iff (digitCount_pos n)]
  have hn := (digitCount_le_iff (digitCount_pos n)).mp (le_refl (digitCount n))
  omega

/-- Counting one further adds at most one digit. -/
theorem digitCount_succ_le (n : ℕ) : digitCount (n + 1) ≤ digitCount n + 1 := by
  rw [digitCount_le_iff (Nat.succ_pos _)]
  have hn := (digitCount_le_iff (digitCount_pos n)).mp (le_refl (digitCount n))
  have hpow : 10 ^ (digitCount n + 1) = 10 * 10 ^ digitCount n := by rw [pow_succ, mul_comm]
  omega

/-- Adding a number costs at most as many digits as its amount. -/
theorem digitCount_add_le (n k : ℕ) : digitCount (n + k) ≤ digitCount n + k := by
  induction k with
  | zero => exact le_rfl
  | succ k ih =>
    have hsucc := digitCount_succ_le (n + k)
    rw [← add_assoc]
    omega

namespace Json

variable {N : Type} {weight : Char → ℕ} {style : Style N}

/-! ## Parts of values -/

/-- The length of a printed value. -/
def size (weight : Char → ℕ) (style : Style N) (v : Json N) : ℕ :=
  weigh weight (v.print style)

/-- The length of a field with the colon in it. -/
def fieldSize (weight : Char → ℕ) (style : Style N) (field : Text × Json N) : ℕ :=
  weigh weight (quote style.escape field.1) + 1 + field.2.size weight style

/-- The size of a truth value is that of its name. -/
theorem size_bool (h : Plain weight) (b : Bool) :
    (Json.bool b : Json N).size weight style = if b then 4 else 5 := by
  have hone := h.punctuation
  cases b with
  | true =>
    rw [size, print, weigh_eq_length fun c hc => hone c (forall_of_all (by decide) c hc)]
    rfl
  | false =>
    rw [size, print, weigh_eq_length fun c hc => hone c (forall_of_all (by decide) c hc)]
    rfl

/-- The size of a string is that of its escaped characters and two quotation marks. -/
theorem size_str (h : Plain weight) (s : Text) : (Json.str s : Json N).size weight style =
    weigh weight (s.flatMap style.escape) + 2 := by
  have hquote := h.punctuation '"' (by decide)
  simp only [size, print, quote, weigh_cons, weigh_append, weigh_nil, hquote]
  omega

/-- The items weigh what each weighs with its separator. -/
theorem size_printItems (h : Plain weight) (items : List (Json N)) :
    weigh weight (printItems style items) =
      (items.map fun v => v.size weight style + 1).sum + 1 := by
  induction items with
  | nil => simp [printItems, h.punctuation ']' (by decide)]
  | cons v items ih =>
    have hcomma := h.punctuation ',' (by decide)
    simp only [printItems, weigh_cons, weigh_append, hcomma, ih, List.map_cons, List.sum_cons]
    rw [← size]
    omega

/-- The fields weigh what each weighs with its separator. -/
theorem size_printFields (h : Plain weight) (fields : List (Text × Json N)) :
    weigh weight (printFields style fields) =
      (fields.map fun field => fieldSize weight style field + 1).sum + 1 := by
  induction fields with
  | nil => simp [printFields, h.punctuation '}' (by decide)]
  | cons field fields ih =>
    have hcomma := h.punctuation ',' (by decide)
    have hcolon := h.punctuation ':' (by decide)
    simp only [printFields, weigh_cons, weigh_append, hcomma, hcolon, ih, List.map_cons,
      List.sum_cons, fieldSize]
    rw [← size]
    omega

/-- An array is as long as its items with the marks between them. -/
theorem size_arr (h : Plain weight) {items : List (Json N)} (hne : items ≠ []) :
    (Json.arr items).size weight style =
      (items.map fun v => v.size weight style + 1).sum + 1 := by
  cases items with
  | nil => exact absurd rfl hne
  | cons v items =>
    have hopen := h.punctuation '[' (by decide)
    simp only [size, print, weigh_cons, weigh_append, hopen, size_printItems h, List.map_cons,
      List.sum_cons]
    omega

/-- An object is as long as its fields with the marks between them. -/
theorem size_obj (h : Plain weight) {fields : List (Text × Json N)} (hne : fields ≠ []) :
    (Json.obj fields).size weight style =
      (fields.map fun field => fieldSize weight style field + 1).sum + 1 := by
  cases fields with
  | nil => exact absurd rfl hne
  | cons field fields =>
    have hopen := h.punctuation '{' (by decide)
    have hcolon := h.punctuation ':' (by decide)
    simp only [size, print, weigh_cons, weigh_append, hopen, hcolon, size_printFields h,
      List.map_cons, List.sum_cons, fieldSize]
    omega

end Json

end Tracewake.JsonText
