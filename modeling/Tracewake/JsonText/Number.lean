import Mathlib.Data.Int.Notation
import Mathlib.Data.List.TakeWhile

/-!
# Spellings of numbers

The number grammar of JSON on texts, and the decimal spelling of integers. An integer
has one spelling without leading zeros, and only the spelling `-0` is not the one of
its value.
-/

namespace Tracewake.JsonText

/-- A text as its list of Unicode scalar values. -/
abbrev Text := List Char

/-- A text without its leading minus sign. -/
def unsigned : Text → Text
  | '-' :: rest => rest
  | text => text

/-- Digits without a leading zero. -/
def isNatural : Text → Bool
  | [] => false
  | [c] => c.isDigit
  | c :: rest => c.isDigit && c ≠ '0' && rest.all Char.isDigit

/-- An exponent with an optional sign, or nothing. -/
def isExponent : Text → Bool
  | [] => true
  | e :: rest =>
    let digits := match rest with
      | '+' :: rest => rest
      | '-' :: rest => rest
      | rest => rest
    (e = 'e' || e = 'E') && !digits.isEmpty && digits.all Char.isDigit

/-- A fraction, or nothing, and then an exponent, or nothing. -/
def isFraction : Text → Bool
  | '.' :: rest =>
    !(rest.takeWhile Char.isDigit).isEmpty && isExponent (rest.dropWhile Char.isDigit)
  | text => isExponent text

/-- The number grammar of JSON. -/
def isNumber (text : Text) : Bool :=
  isNatural ((unsigned text).takeWhile Char.isDigit) &&
    isFraction ((unsigned text).dropWhile Char.isDigit)

/-- A number that is spelled without a fraction and without an exponent. -/
def Integral (text : Text) : Prop :=
  ∀ c ∈ text, c ≠ '.' ∧ c ≠ 'e' ∧ c ≠ 'E'

instance (text : Text) : Decidable (Integral text) :=
  List.decidableBAll _ text

/-- The characters of numbers and of the three literals. -/
def isTokenChar (c : Char) : Bool :=
  c.isAlphanum || c = '-' || c = '+' || c = '.'

/-- The decimal spelling of an integer. -/
def printInt : ℤ → Text
  | .ofNat n => Nat.toDigits 10 n
  | .negSucc n => '-' :: Nat.toDigits 10 (n + 1)

/-- The integer that a text without fraction and exponent spells. -/
def readInt : Text → ℤ
  | '-' :: digits => -(Nat.ofDigitChars 10 digits 0 : ℤ)
  | digits => Nat.ofDigitChars 10 digits 0

/-- The digits of a number are digits. -/
theorem toDigits_isDigit {n : ℕ} {c : Char} (h : c ∈ Nat.toDigits 10 n) : c.isDigit = true :=
  Nat.isDigit_of_mem_toDigits (by decide) (by decide) h

/-- Digits do not begin with a minus sign. -/
theorem unsigned_digits {digits : Text} (h : digits.all Char.isDigit = true) :
    unsigned digits = digits := by
  cases digits with
  | nil => rfl
  | cons c rest =>
    have hc : c ≠ '-' := by
      rintro rfl
      simp at h
    simp [unsigned, hc]

/-- Digits are read as the number that they spell. -/
theorem readInt_digits {digits : Text} (h : digits.all Char.isDigit = true) :
    readInt digits = Nat.ofDigitChars 10 digits 0 := by
  cases digits with
  | nil => rfl
  | cons c rest =>
    have hc : c ≠ '-' := by
      rintro rfl
      simp at h
    simp [readInt, hc]

/-- The digits of a number are digits, all of them. -/
theorem toDigits_all (n : ℕ) : (Nat.toDigits 10 n).all Char.isDigit = true :=
  List.all_eq_true.mpr fun _ h => toDigits_isDigit h

/-- Reading the decimal spelling gives the integer back. -/
@[simp]
theorem readInt_printInt (n : ℤ) : readInt (printInt n) = n := by
  cases n with
  | ofNat n =>
    rw [printInt, readInt_digits (toDigits_all n), Nat.ofDigitChars_ten_toDigits]
    rfl
  | negSucc n =>
    rw [printInt, readInt, Nat.ofDigitChars_ten_toDigits]
    omega

/-- The first decimal digit of a positive number is not zero. -/
theorem toDigits_head {n : ℕ} (hn : 0 < n) : (Nat.toDigits 10 n).head? ≠ some '0' := by
  induction n using Nat.strongRecOn with
  | ind n ih =>
    rw [Nat.toDigits_eq_if (by decide)]
    split
    · have hne : n ≠ 0 := by omega
      simpa using hne
    · have hhead := ih (n / 10) (by omega) (by omega)
      have hne : Nat.toDigits 10 (n / 10) ≠ [] := Nat.toDigits_ne_nil
      cases hdigits : Nat.toDigits 10 (n / 10) with
      | nil => exact absurd hdigits hne
      | cons c rest => simpa [hdigits] using hhead

/-- A number is written without a leading zero. -/
theorem isNatural_toDigits (n : ℕ) : isNatural (Nat.toDigits 10 n) = true := by
  have hall := toDigits_all n
  rcases Nat.eq_zero_or_pos n with rfl | hn
  · decide
  · have hhead := toDigits_head hn
    cases hdigits : Nat.toDigits 10 n with
    | nil => exact absurd hdigits Nat.toDigits_ne_nil
    | cons c rest =>
      rw [hdigits] at hall hhead
      cases rest with
      | nil => simpa [isNatural] using hall
      | cons d rest => simp_all [isNatural]

/-- Appending a digit to a number without leading zeros appends it to the spelling. -/
theorem toDigits_snoc {n d : ℕ} (hn : 0 < n) (hd : d < 10) :
    Nat.toDigits 10 (10 * n + d) = Nat.toDigits 10 n ++ [Nat.digitChar d] := by
  rw [← Nat.toDigits_append_toDigits (by decide) hn hd, Nat.toDigits_of_lt_base hd]

/-- A digit is the digit of its value. -/
theorem digitChar_of_isDigit {c : Char} (h : c.isDigit = true) :
    Nat.digitChar (c.toNat - '0'.toNat) = c ∧ c.toNat - '0'.toNat < 10 := by
  have hbounds : '0'.toNat ≤ c.toNat ∧ c.toNat ≤ '9'.toNat := by
    simpa [Char.isDigit, UInt32.le_iff_toNat_le] using h
  have hlt : c.toNat - '0'.toNat < 10 := by
    have : '9'.toNat = '0'.toNat + 9 := by decide
    omega
  refine ⟨?_, hlt⟩
  have hvalue : ∀ k < 10, Nat.digitChar k = Char.ofNat ('0'.toNat + k) := by decide
  rw [hvalue _ hlt, show '0'.toNat + (c.toNat - '0'.toNat) = c.toNat by omega, Char.ofNat_toNat]

/-- Digits without a leading zero are the spelling of the number they denote. -/
theorem toDigits_ofDigitChars {digits : Text} (h : isNatural digits = true) :
    Nat.toDigits 10 (Nat.ofDigitChars 10 digits 0) = digits := by
  have hstep : ∀ (rest : Text) (n : ℕ), 0 < n → rest.all Char.isDigit = true →
      Nat.toDigits 10 (Nat.ofDigitChars 10 rest n) = Nat.toDigits 10 n ++ rest := by
    intro rest
    induction rest with
    | nil => simp
    | cons c rest ih =>
      intro n hn hall
      simp only [List.all_cons, Bool.and_eq_true] at hall
      obtain ⟨hchar, hlt⟩ := digitChar_of_isDigit hall.1
      rw [Nat.ofDigitChars_cons, ih _ (by omega) hall.2, toDigits_snoc hn hlt, hchar]
      simp
  cases digits with
  | nil => simp [isNatural] at h
  | cons c rest =>
    have hc : c.isDigit = true := by
      cases rest <;> simp_all [isNatural]
    obtain ⟨hchar, hlt⟩ := digitChar_of_isDigit hc
    have hfirst : Nat.toDigits 10 (c.toNat - '0'.toNat) = [c] := by
      rw [Nat.toDigits_of_lt_base hlt, hchar]
    rw [Nat.ofDigitChars_cons, Nat.mul_zero, Nat.zero_add]
    cases rest with
    | nil => simpa using hfirst
    | cons d rest =>
      simp only [isNatural, Bool.and_eq_true, decide_eq_true_eq] at h
      obtain ⟨⟨-, hzero⟩, hall⟩ := h
      have hpos : 0 < c.toNat - '0'.toNat := by
        rcases Nat.eq_zero_or_pos (c.toNat - '0'.toNat) with hnull | hpos
        · rw [hnull] at hchar
          exact absurd hchar.symm hzero
        · exact hpos
      rw [hstep _ _ hpos hall, hfirst, List.singleton_append]

/-- Without its sign a number is written as its digits. -/
theorem unsigned_printInt (n : ℤ) : unsigned (printInt n) = Nat.toDigits 10 n.natAbs := by
  cases n with
  | ofNat n => exact unsigned_digits (toDigits_all n)
  | negSucc n => rfl

/-- The decimal spelling of an integer is a number. -/
theorem isNumber_printInt (n : ℤ) : isNumber (printInt n) = true := by
  have hall := List.all_eq_true.mp (toDigits_all n.natAbs)
  have hdrop : (Nat.toDigits 10 n.natAbs).dropWhile Char.isDigit = [] :=
    List.dropWhile_eq_nil_iff.mpr hall
  have htake : (Nat.toDigits 10 n.natAbs).takeWhile Char.isDigit = Nat.toDigits 10 n.natAbs :=
    List.takeWhile_eq_self_iff.mpr hall
  rw [isNumber, unsigned_printInt, hdrop, htake, isNatural_toDigits]
  rfl

/-- A digit is no point and no exponent sign. -/
theorem isDigit_integral {c : Char} (h : c.isDigit = true) : c ≠ '.' ∧ c ≠ 'e' ∧ c ≠ 'E' := by
  refine ⟨?_, ?_, ?_⟩ <;> rintro rfl <;> simp at h

/-- An integer is written without point and exponent. -/
theorem integral_printInt (n : ℤ) : Integral (printInt n) := by
  intro c hc
  cases n with
  | ofNat n => exact isDigit_integral (toDigits_isDigit hc)
  | negSucc n =>
    rcases List.mem_cons.mp hc with rfl | hc
    · decide
    · exact isDigit_integral (toDigits_isDigit hc)

/-- A number without fraction and exponent is its digits after the sign. -/
theorem isNatural_unsigned {text : Text} (h : isNumber text = true) (hintegral : Integral text) :
    isNatural (unsigned text) = true := by
  have hmem : ∀ c ∈ unsigned text, c ∈ text := by
    intro c hc
    unfold unsigned at hc
    split at hc
    · exact List.mem_cons_of_mem _ hc
    · exact hc
  simp only [isNumber, Bool.and_eq_true] at h
  obtain ⟨hnatural, hfraction⟩ := h
  have hrest : (unsigned text).dropWhile Char.isDigit = [] := by
    cases hdrop : (unsigned text).dropWhile Char.isDigit with
    | nil => rfl
    | cons c rest =>
      have hc : c ∈ unsigned text :=
        (List.dropWhile_suffix _).subset (hdrop ▸ List.mem_cons_self)
      obtain ⟨hdot, he, hE⟩ := hintegral c (hmem c hc)
      simp [hdrop, isFraction, isExponent, hdot, he, hE] at hfraction
  rwa [List.takeWhile_eq_self_iff.mpr (List.dropWhile_eq_nil_iff.mp hrest)] at hnatural

/-- What is written as a natural number consists of digits. -/
theorem isNatural_all {digits : Text} (h : isNatural digits = true) :
    digits.all Char.isDigit = true := by
  cases digits with
  | nil => rfl
  | cons c rest => cases rest <;> simp_all [isNatural]

/-- An integer spelling other than `-0` is the decimal spelling of its value. -/
theorem printInt_readInt {text : Text} (h : isNumber text = true) (hintegral : Integral text)
    (hzero : text ≠ ['-', '0']) : printInt (readInt text) = text := by
  have hnatural := isNatural_unsigned h hintegral
  have hspelling := toDigits_ofDigitChars hnatural
  by_cases hminus : text.head? = some '-'
  · obtain ⟨rest, rfl⟩ : ∃ rest, text = '-' :: rest := by
      cases text with
      | nil => simp at hminus
      | cons c rest => exact ⟨rest, by simpa using hminus⟩
    simp only [unsigned] at hspelling
    cases hvalue : Nat.ofDigitChars 10 rest 0 with
    | zero =>
      rw [hvalue, Nat.toDigits_zero] at hspelling
      exact absurd (by rw [hspelling]) hzero
    | succ n =>
      rw [hvalue] at hspelling
      simp only [readInt, hvalue]
      change '-' :: Nat.toDigits 10 (n + 1) = _
      rw [hspelling]
  · have hsame : unsigned text = text := by
      unfold unsigned
      split
      · simp at hminus
      · rfl
    rw [hsame] at hnatural hspelling
    rw [readInt_digits (isNatural_all hnatural)]
    exact hspelling

/-- A digit may stand in a token. -/
theorem isDigit_isTokenChar {c : Char} (h : c.isDigit = true) : isTokenChar c = true := by
  simp [isTokenChar, Char.isAlphanum, h]

/-- An exponent may stand in a token. -/
theorem isExponent_isTokenChar {text : Text} (h : isExponent text = true) :
    text.all isTokenChar = true := by
  have hdigits : ∀ digits : Text, digits.all Char.isDigit = true →
      digits.all isTokenChar = true := by
    intro digits hall
    rw [List.all_eq_true] at hall ⊢
    exact fun c hc => isDigit_isTokenChar (hall c hc)
  cases text with
  | nil => rfl
  | cons e rest =>
    simp only [isExponent, Bool.and_eq_true, Bool.or_eq_true, decide_eq_true_eq] at h
    obtain ⟨⟨he, -⟩, hall⟩ := h
    have hletter : isTokenChar e = true := by
      rcases he with rfl | rfl <;> decide
    simp only [List.all_cons, hletter, Bool.true_and]
    split at hall
    · simp only [List.all_cons, hdigits _ hall]
      decide
    · simp only [List.all_cons, hdigits _ hall]
      decide
    · exact hdigits _ hall

/-- A number consists of token characters. -/
theorem isNumber_isTokenChar {text : Text} (h : isNumber text = true) :
    text.all isTokenChar = true := by
  have htake : ∀ part : Text, (part.takeWhile Char.isDigit).all isTokenChar = true := by
    intro part
    rw [List.all_eq_true]
    exact fun c hc => isDigit_isTokenChar (List.mem_takeWhile_imp hc)
  have hjoin : ∀ part : Text, (part.dropWhile Char.isDigit).all isTokenChar = true →
      part.all isTokenChar = true := by
    intro part hpart
    rw [← List.takeWhile_append_dropWhile (p := Char.isDigit) (l := part), List.all_append,
      htake, hpart]
    rfl
  simp only [isNumber, Bool.and_eq_true] at h
  have hunsigned : (unsigned text).all isTokenChar = true := by
    apply hjoin
    have hfraction := h.2
    unfold isFraction at hfraction
    split at hfraction
    · next rest hrest =>
      simp only [Bool.and_eq_true] at hfraction
      have hexponent := hjoin rest (isExponent_isTokenChar hfraction.2)
      rw [hrest, List.all_cons, hexponent]
      decide
    · exact isExponent_isTokenChar hfraction
  unfold unsigned at hunsigned
  split at hunsigned
  · simp only [List.all_cons, hunsigned]
    decide
  · exact hunsigned

/-- The first character of a number is a digit or a minus sign. -/
theorem isNumber_head {text : Text} (h : isNumber text = true) :
    ∃ c rest, text = c :: rest ∧ (c.isDigit = true ∨ c = '-') := by
  cases text with
  | nil => exact absurd h (by decide)
  | cons c rest =>
    refine ⟨c, rest, rfl, ?_⟩
    by_cases hminus : c = '-'
    · exact .inr hminus
    · left
      have hsame : unsigned (c :: rest) = c :: rest := by simp [unsigned, hminus]
      by_contra hdigit
      simp [isNumber, hsame, hdigit, isNatural] at h

end Tracewake.JsonText
