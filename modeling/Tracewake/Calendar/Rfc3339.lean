import Mathlib.Algebra.GroupWithZero.Nat
import Mathlib.Data.List.DropRight
import Mathlib.Data.Nat.Notation
import Tracewake.Calendar.Dates

/-!
# Times in RFC 3339

The text of a time in the zone of a clock, with as many digits of its second as it needs, and
the strict reader of such texts. Times count nanoseconds from the beginning of 1970.
-/

namespace Tracewake.Calendar

/-! ## Digits -/

/-- The last decimal digits of a number. -/
def padded : ℕ → ℕ → List Char
  | 0, _ => []
  | width + 1, n => padded width (n / 10) ++ [Nat.digitChar (n % 10)]

/-- The number that some digits spell. -/
def number (digits : List Char) : Option ℕ :=
  if digits.all Char.isDigit then some (Nat.ofDigitChars 10 digits 0) else none

section Digits

/-- A padded number fills its width. -/
theorem padded_length (width n : ℕ) : (padded width n).length = width := by
  induction width generalizing n with
  | zero => rfl
  | succ width ih => simp [padded, ih]

/-- A padded number consists of digits. -/
theorem padded_isDigit (width n : ℕ) : ∀ c ∈ padded width n, c.isDigit = true := by
  induction width generalizing n with
  | zero => simp [padded]
  | succ width ih =>
    intro c hc
    rcases List.mem_append.mp hc with hc | hc
    · exact ih _ c hc
    · rw [List.mem_singleton.mp hc, Nat.isDigit_digitChar]
      exact decide_eq_true (Nat.mod_lt n (by decide))

/-- A number that fits is read back from its padded digits. -/
theorem ofDigitChars_padded {width n : ℕ} (h : n < 10 ^ width) :
    Nat.ofDigitChars 10 (padded width n) 0 = n := by
  induction width generalizing n with
  | zero =>
    have hzero : n = 0 := by simpa using h
    rw [hzero]
    rfl
  | succ width ih =>
    have hshort : n / 10 < 10 ^ width := by
      rw [Nat.pow_succ] at h
      omega
    rw [padded, Nat.ofDigitChars_append, ih hshort,
      Nat.ofDigitChars_cons_digitChar_of_lt_ten (Nat.mod_lt n (by decide)), Nat.ofDigitChars_nil]
    omega

/-- The digits are read back. -/
theorem number_padded {width n : ℕ} (h : n < 10 ^ width) : number (padded width n) = some n := by
  rw [number, if_pos (List.all_eq_true.mpr (padded_isDigit width n)), ofDigitChars_padded h]

end Digits

/-! ## Texts -/

def nanosPerSecond : ℤ := 1000000000

def nanosPerDay : ℤ := 86400 * nanosPerSecond

/-- The digits of a second that are left when the zeros at their end are dropped. -/
def fractionText (nanos : ℕ) : List Char :=
  match (padded 9 nanos).rdropWhile (· = '0') with
  | [] => []
  | digits => '.' :: digits

/-- `Z`, or the minutes that the zone is ahead or behind. -/
def zoneText (zone : ℤ) : List Char :=
  if zone = 0 then ['Z']
  else (if 0 < zone then '+' else '-') ::
    (padded 2 (zone.natAbs / 60) ++ ':' :: padded 2 (zone.natAbs % 60))

/-- `2006-01-02T15:04:05.999999999Z07:00`, for the year of which there must be four digits. -/
def formatTime (zone time : ℤ) : Option (List Char) :=
  let shown := time + zone * 60 * nanosPerSecond
  let date := dateOf (shown / nanosPerDay)
  let second := (shown % nanosPerDay / nanosPerSecond).toNat
  let nanos := (shown % nanosPerSecond).toNat
  if 0 ≤ date.year ∧ date.year < 10000 ∧ zone.natAbs < 1440 then
    some (padded 4 date.year.toNat ++ '-' :: padded 2 date.month.toNat ++ '-' ::
      padded 2 date.day.toNat ++ 'T' :: padded 2 (second / 3600) ++ ':' ::
      padded 2 (second / 60 % 60) ++ ':' :: padded 2 (second % 60) ++
      fractionText nanos ++ zoneText zone)
  else none

/-- The nanoseconds after the point, of which nine digits are read, and the rest. -/
def readFraction : List Char → ℕ × List Char
  | '.' :: c :: rest =>
    if c.isDigit then
      let digits := (c :: rest).takeWhile Char.isDigit
      (Nat.ofDigitChars 10 ((digits ++ List.replicate 9 '0').take 9) 0,
        (c :: rest).dropWhile Char.isDigit)
    else (0, '.' :: c :: rest)
  | rest => (0, rest)

/-- The minutes of a zone. -/
def readZone : List Char → Option ℤ
  | ['Z'] => some 0
  | [sign, h₁, h₂, ':', m₁, m₂] => do
    let hours ← number [h₁, h₂]
    let minutes ← number [m₁, m₂]
    if hours < 24 ∧ minutes < 60 then
      if sign = '+' then some (hours * 60 + minutes : ℕ)
      else if sign = '-' then some (-(hours * 60 + minutes : ℕ))
      else none
    else none
  | _ => none

/-- The strict reader of times. -/
def parseTime : List Char → Option ℤ
  | y₁ :: y₂ :: y₃ :: y₄ :: '-' :: o₁ :: o₂ :: '-' :: d₁ :: d₂ :: 'T' :: h₁ :: h₂ :: ':' ::
      m₁ :: m₂ :: ':' :: s₁ :: s₂ :: rest => do
    let year ← number [y₁, y₂, y₃, y₄]
    let month ← number [o₁, o₂]
    let day ← number [d₁, d₂]
    let hour ← number [h₁, h₂]
    let minute ← number [m₁, m₂]
    let second ← number [s₁, s₂]
    let date : Date := ⟨year, month, day⟩
    let (nanos, rest) := readFraction rest
    let zone ← readZone rest
    if date.Valid ∧ hour < 24 ∧ minute < 60 ∧ second < 60 then
      some ((dayOf date * 86400 + hour * 3600 + minute * 60 + second - zone * 60) *
        nanosPerSecond + nanos)
    else none
  | _ => none

section Texts

/-- The two digits of a number. -/
theorem padded_two (n : ℕ) : padded 2 n = [Nat.digitChar (n / 10 % 10), Nat.digitChar (n % 10)] :=
  rfl

/-- The four digits of a number. -/
theorem padded_four (n : ℕ) : padded 4 n = [Nat.digitChar (n / 10 / 10 / 10 % 10),
    Nat.digitChar (n / 10 / 10 % 10), Nat.digitChar (n / 10 % 10), Nat.digitChar (n % 10)] :=
  rfl

/-- The zone is read back. -/
theorem readZone_zoneText {zone : ℤ} (h : zone.natAbs < 1440) :
    readZone (zoneText zone) = some zone := by
  unfold zoneText
  split
  · next hzero =>
    rw [hzero]
    rfl
  · next hne =>
    have hhours : number (padded 2 (zone.natAbs / 60)) = some (zone.natAbs / 60) :=
      number_padded (by omega)
    have hminutes : number (padded 2 (zone.natAbs % 60)) = some (zone.natAbs % 60) :=
      number_padded (by omega)
    rw [padded_two] at hhours hminutes
    simp only [padded_two, List.cons_append, List.nil_append, readZone, hhours, hminutes,
      Option.bind_eq_bind, Option.bind_some]
    rw [if_pos (by omega)]
    split
    · simp only [if_true, Option.some.injEq]
      omega
    · simp only [if_true, Option.some.injEq, Char.reduceEq, if_false]
      omega

/-- No zone continues the digits of a second. -/
theorem zoneText_head (zone : ℤ) : ∃ c rest, zoneText zone = c :: rest ∧ c.isDigit = false ∧
    c ≠ '.' := by
  unfold zoneText
  split
  · exact ⟨_, _, rfl, by decide, by decide⟩
  · split
    · exact ⟨_, _, rfl, by decide, by decide⟩
    · exact ⟨_, _, rfl, by decide, by decide⟩

/-- The zeros that were dropped are supplied again. -/
theorem pad_rdropWhile (digits : List Char) :
    ((digits.rdropWhile (· = '0')) ++ List.replicate digits.length '0').take digits.length =
      digits := by
  have hsplit := List.rdropWhile_append_rtakeWhile (p := fun c => decide (c = '0')) (l := digits)
  have hzeros : digits.rtakeWhile (fun c => decide (c = '0')) =
      List.replicate (digits.rtakeWhile (fun c => decide (c = '0'))).length '0' := by
    apply List.eq_replicate_of_mem
    intro c hc
    simpa using List.mem_rtakeWhile_imp hc
  generalize digits.rdropWhile (fun c => decide (c = '0')) = kept at hsplit ⊢
  generalize hdropped : (digits.rtakeWhile fun c => decide (c = '0')).length = dropped at hzeros
  rw [hzeros] at hsplit
  have hlength : kept.length + dropped = digits.length := by
    rw [← hsplit]
    simp
  rw [List.take_append, List.take_of_length_le (by omega), List.take_replicate,
    show min (digits.length - kept.length) digits.length = dropped by omega]
  exact hsplit

/-- The nanoseconds are read back, whatever follows them. -/
theorem readFraction_fractionText {nanos : ℕ} (h : nanos < 10 ^ 9) {c : Char} {rest : List Char}
    (hdigit : c.isDigit = false) (hpoint : c ≠ '.') :
    readFraction (fractionText nanos ++ c :: rest) = (nanos, c :: rest) := by
  have hpadded := pad_rdropWhile (padded 9 nanos)
  have hkept : ∀ d ∈ (padded 9 nanos).rdropWhile (· = '0'), d.isDigit = true := fun d hd =>
    padded_isDigit 9 nanos d ((List.rdropWhile_prefix _ _).subset hd)
  rw [padded_length] at hpadded
  rw [fractionText]
  cases hdigits : (padded 9 nanos).rdropWhile (· = '0') with
  | nil =>
    rw [hdigits] at hpadded
    have hzero : nanos = 0 := by
      rw [← ofDigitChars_padded h, ← hpadded]
      decide
    rw [hzero]
    simp only [List.nil_append]
    unfold readFraction
    split
    · next heq => exact absurd (List.cons.inj heq).1 hpoint
    · rfl
  | cons d digits =>
    rw [hdigits] at hpadded hkept
    have hall : ∀ e ∈ d :: digits, e.isDigit = true := hkept
    have htake : ((d :: digits) ++ c :: rest).takeWhile Char.isDigit = d :: digits := by
      rw [List.takeWhile_append_of_pos hall, List.takeWhile_cons_of_neg (by simp [hdigit]),
        List.append_nil]
    have hdrop : ((d :: digits) ++ c :: rest).dropWhile Char.isDigit = c :: rest := by
      rw [List.dropWhile_append_of_pos hall, List.dropWhile_cons_of_neg (by simp [hdigit])]
    simp only [List.cons_append] at htake hdrop
    simp only [List.cons_append, readFraction, hall d (List.mem_cons_self ..), if_true, htake,
      hdrop, Prod.mk.injEq, and_true]
    rw [← List.cons_append, hpadded, ofDigitChars_padded h]

/-- A time is read back from its text. -/
theorem parseTime_formatTime {zone time : ℤ} {text : List Char}
    (h : formatTime zone time = some text) : parseTime text = some time := by
  simp only [formatTime, Option.ite_none_right_eq_some, Option.some.injEq] at h
  obtain ⟨⟨hyear, hyear', hzone⟩, rfl⟩ := h
  generalize hshown : time + zone * 60 * nanosPerSecond = shown at *
  have hvalid := dateOf_valid (shown / nanosPerDay)
  have hday := dayOf_dateOf (shown / nanosPerDay)
  generalize dateOf (shown / nanosPerDay) = date at *
  obtain ⟨year, month, day⟩ := date
  simp only at hyear hyear' ⊢
  have hsecond : (shown % nanosPerDay / nanosPerSecond).toNat < 86400 := by
    simp only [nanosPerDay, nanosPerSecond]
    omega
  have hnanos : (shown % nanosPerSecond).toNat < 10 ^ 9 := by
    simp only [nanosPerSecond]
    omega
  have htotal : shown = (shown / nanosPerDay * 86400 +
      (shown % nanosPerDay / nanosPerSecond).toNat) * nanosPerSecond +
      (shown % nanosPerSecond).toNat := by
    simp only [nanosPerDay, nanosPerSecond]
    omega
  generalize (shown % nanosPerDay / nanosPerSecond).toNat = second at *
  generalize (shown % nanosPerSecond).toNat = nanos at *
  have hbounds : 1 ≤ month ∧ month ≤ 12 ∧ 1 ≤ day ∧ day ≤ 31 := by
    simp only [Date.Valid, daysIn] at hvalid
    split at hvalid
    · split at hvalid <;> omega
    · split at hvalid <;> omega
  have hy : number (padded 4 year.toNat) = some year.toNat := number_padded (by omega)
  have ho : number (padded 2 month.toNat) = some month.toNat := number_padded (by omega)
  have hd : number (padded 2 day.toNat) = some day.toNat := number_padded (by omega)
  have hh : number (padded 2 (second / 3600)) = some (second / 3600) := number_padded (by omega)
  have hm : number (padded 2 (second / 60 % 60)) = some (second / 60 % 60) :=
    number_padded (by omega)
  have hs : number (padded 2 (second % 60)) = some (second % 60) := number_padded (by omega)
  have hfraction : readFraction (fractionText nanos ++ zoneText zone) =
      (nanos, zoneText zone) := by
    obtain ⟨c, rest, heq, hdigit, hpoint⟩ := zoneText_head zone
    rw [heq]
    exact readFraction_fractionText hnanos hdigit hpoint
  simp only [padded_two, padded_four] at hy ho hd hh hm hs
  simp only [padded_two, padded_four, List.cons_append, List.nil_append, parseTime, hy, ho, hd,
    hh, hm, hs, hfraction, readZone_zoneText hzone, Option.bind_eq_bind, Option.bind_some,
    Int.toNat_of_nonneg hyear, Int.toNat_of_nonneg (show 0 ≤ month by omega),
    Int.toNat_of_nonneg (show 0 ≤ day by omega), hday]
  rw [if_pos ⟨hvalid, by omega, by omega, by omega⟩, Option.some.injEq]
  have hclock : second / 3600 * 3600 + second / 60 % 60 * 60 + second % 60 = second := by omega
  simp only [nanosPerSecond] at hshown htotal ⊢
  omega

end Texts

end Tracewake.Calendar
