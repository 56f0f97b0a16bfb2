import Mathlib.Data.Nat.Notation

/-!
# Hexadecimal digits

The digits are read in either case and written in lower case.
-/

namespace Tracewake.Encodings

/-- The value of a hexadecimal digit in either case. -/
def hexValue (c : Char) : Option ℕ :=
  if '0' ≤ c ∧ c ≤ '9' then some (c.toNat - '0'.toNat)
  else if 'a' ≤ c ∧ c ≤ 'f' then some (c.toNat - 'a'.toNat + 10)
  else if 'A' ≤ c ∧ c ≤ 'F' then some (c.toNat - 'A'.toNat + 10)
  else none

/-- The lower-case hexadecimal digit of a value below 16. -/
def hexDigit (n : ℕ) : Char :=
  if n < 10 then Char.ofNat ('0'.toNat + n) else Char.ofNat ('a'.toNat + (n - 10))

/-- A digit that was written is read back. -/
theorem hexValue_hexDigit {n : ℕ} (h : n < 16) : hexValue (hexDigit n) = some n := by
  have hall : ∀ n < 16, hexValue (hexDigit n) = some n := by decide
  exact hall n h

/-- So is a digit that the standard library writes. -/
theorem hexValue_digitChar {n : ℕ} (h : n < 16) : hexValue (Nat.digitChar n) = some n := by
  have hall : ∀ k < 16, hexValue (Nat.digitChar k) = some k := by decide
  exact hall n h

/-- A digit is neither a hyphen nor a brace, which a reader may pass over. -/
theorem hexDigit_plain {n : ℕ} (h : n < 16) : hexDigit n ≠ '-' ∧ hexDigit n ≠ '{' := by
  have hall : ∀ n < 16, hexDigit n ≠ '-' ∧ hexDigit n ≠ '{' := by decide
  exact hall n h

/-- A slash is no digit. -/
theorem hexValue_slash : hexValue '/' = none := by decide

end Tracewake.Encodings
