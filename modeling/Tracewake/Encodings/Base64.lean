import Mathlib.Data.List.Basic
import Mathlib.Data.Nat.Notation

/-!
# Base64 without padding

The alphabet that is safe in addresses, without padding. Every three bytes are four
characters, and one or two bytes at the end are two or three. The reader passes over the ends
of lines and does not look at the bits that the last character has too many.
-/

namespace Tracewake.Encodings

/-- The character of six bits. -/
def sextetChar (n : ℕ) : Char :=
  if n < 26 then Char.ofNat ('A'.toNat + n)
  else if n < 52 then Char.ofNat ('a'.toNat + (n - 26))
  else if n < 62 then Char.ofNat ('0'.toNat + (n - 52))
  else if n = 62 then '-'
  else '_'

/-- The six bits of a character. -/
def sextet (c : Char) : Option ℕ :=
  if 'A' ≤ c ∧ c ≤ 'Z' then some (c.toNat - 'A'.toNat)
  else if 'a' ≤ c ∧ c ≤ 'z' then some (c.toNat - 'a'.toNat + 26)
  else if '0' ≤ c ∧ c ≤ '9' then some (c.toNat - '0'.toNat + 52)
  else if c = '-' then some 62
  else if c = '_' then some 63
  else none

/-- `base64.RawURLEncoding.EncodeToString`. -/
def encodeBase64 : List UInt8 → List Char
  | [] => []
  | [a] => [sextetChar (a.toNat / 4), sextetChar (a.toNat % 4 * 16)]
  | [a, b] =>
    [sextetChar (a.toNat / 4), sextetChar (a.toNat % 4 * 16 + b.toNat / 16),
      sextetChar (b.toNat % 16 * 4)]
  | a :: b :: c :: rest =>
    sextetChar (a.toNat / 4) :: sextetChar (a.toNat % 4 * 16 + b.toNat / 16) ::
      sextetChar (b.toNat % 16 * 4 + c.toNat / 64) :: sextetChar (c.toNat % 64) ::
        encodeBase64 rest

/-- The bytes of characters among which there are no ends of lines. -/
def decodeSextets : List Char → Option (List UInt8)
  | [] => some []
  | [_] => none
  | [p, q] => do
    let x ← sextet p
    let y ← sextet q
    return [UInt8.ofNat (x * 4 + y / 16)]
  | [p, q, r] => do
    let x ← sextet p
    let y ← sextet q
    let z ← sextet r
    return [UInt8.ofNat (x * 4 + y / 16), UInt8.ofNat (y % 16 * 16 + z / 4)]
  | p :: q :: r :: s :: rest => do
    let x ← sextet p
    let y ← sextet q
    let z ← sextet r
    let w ← sextet s
    let bytes ← decodeSextets rest
    return UInt8.ofNat (x * 4 + y / 16) :: UInt8.ofNat (y % 16 * 16 + z / 4) ::
      UInt8.ofNat (z % 4 * 64 + w) :: bytes

/-- `base64.RawURLEncoding.DecodeString`. -/
def decodeBase64 (text : List Char) : Option (List UInt8) :=
  decodeSextets (text.filter fun c => c ≠ '\r' ∧ c ≠ '\n')

/-- Six bits are read back from their character. -/
theorem sextet_sextetChar {n : ℕ} (h : n < 64) : sextet (sextetChar n) = some n := by
  have hall : ∀ n < 64, sextet (sextetChar n) = some n := by decide
  exact hall n h

/-- A byte is given by its number. -/
theorem ofNat_eq {a : UInt8} {n : ℕ} (h : n = a.toNat) : UInt8.ofNat n = a := by
  rw [h, UInt8.ofNat_toNat]

/-- Bytes are read back from their groups of six bits. By induction, three bytes at a
time. -/
theorem decodeSextets_encodeBase64 (bytes : List UInt8) :
    decodeSextets (encodeBase64 bytes) = some bytes := by
  fun_induction encodeBase64 bytes with
  | case1 => rfl
  | case2 a =>
    have ha := a.toNat_lt
    simp only [decodeSextets, sextet_sextetChar (show a.toNat / 4 < 64 by omega),
      sextet_sextetChar (show a.toNat % 4 * 16 < 64 by omega), Option.bind_eq_bind,
      Option.bind_some, pure]
    rw [ofNat_eq (a := a) (by omega)]
  | case3 a b =>
    have ha := a.toNat_lt
    have hb := b.toNat_lt
    simp only [decodeSextets, sextet_sextetChar (show a.toNat / 4 < 64 by omega),
      sextet_sextetChar (show a.toNat % 4 * 16 + b.toNat / 16 < 64 by omega),
      sextet_sextetChar (show b.toNat % 16 * 4 < 64 by omega), Option.bind_eq_bind,
      Option.bind_some, pure]
    rw [ofNat_eq (a := a) (by omega), ofNat_eq (a := b) (by omega)]
  | case4 a b c rest ih =>
    have ha := a.toNat_lt
    have hb := b.toNat_lt
    have hc := c.toNat_lt
    simp only [decodeSextets, sextet_sextetChar (show a.toNat / 4 < 64 by omega),
      sextet_sextetChar (show a.toNat % 4 * 16 + b.toNat / 16 < 64 by omega),
      sextet_sextetChar (show b.toNat % 16 * 4 + c.toNat / 64 < 64 by omega),
      sextet_sextetChar (show c.toNat % 64 < 64 by omega), ih, Option.bind_eq_bind,
      Option.bind_some, pure]
    rw [ofNat_eq (a := a) (by omega), ofNat_eq (a := b) (by omega), ofNat_eq (a := c) (by omega)]

/-- The characters that are written are no ends of lines. -/
theorem encodeBase64_visible (bytes : List UInt8) :
    ∀ c ∈ encodeBase64 bytes, c ≠ '\r' ∧ c ≠ '\n' := by
  have hall : ∀ n < 64, sextetChar n ≠ '\r' ∧ sextetChar n ≠ '\n' := by decide
  fun_induction encodeBase64 bytes with
  | case1 => simp
  | case2 a =>
    have ha := a.toNat_lt
    simp only [List.forall_mem_cons, List.not_mem_nil, false_implies, implies_true, and_true]
    exact ⟨hall _ (by omega), hall _ (by omega)⟩
  | case3 a b =>
    have ha := a.toNat_lt
    have hb := b.toNat_lt
    simp only [List.forall_mem_cons, List.not_mem_nil, false_implies, implies_true, and_true]
    exact ⟨hall _ (by omega), hall _ (by omega), hall _ (by omega)⟩
  | case4 a b c rest ih =>
    have ha := a.toNat_lt
    have hb := b.toNat_lt
    have hc := c.toNat_lt
    simp only [List.forall_mem_cons]
    exact ⟨hall _ (by omega), hall _ (by omega), hall _ (by omega), hall _ (by omega), ih⟩

/-- The bytes are read back. -/
theorem decode_encodeBase64 (bytes : List UInt8) :
    decodeBase64 (encodeBase64 bytes) = some bytes := by
  have hvisible := encodeBase64_visible bytes
  rw [decodeBase64, List.filter_eq_self.mpr fun c hc => decide_eq_true (hvisible c hc),
    decodeSextets_encodeBase64]

end Tracewake.Encodings
