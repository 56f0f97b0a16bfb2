import Mathlib.Data.List.AList
import Mathlib.Data.Nat.Digits.Defs
import Tracewake.Encodings.Hex

/-!
# Identifiers

Rows are identified by UUID values. The control plane writes them in one canonical
spelling, and callers may send any spelling that PostgreSQL reads, so a text names
a row exactly when it parses to the row's identifier.
-/

namespace Tracewake.Hosted

open Encodings

/-- A UUID value. -/
abbrev Uuid := BitVec 128

instance Uuid.decidableMem (id : Uuid) (ids : List Uuid) : Decidable (id ∈ ids) :=
  inferInstanceAs (Decidable (id ∈ ids))

namespace Uuid

/-- The hexadecimal digits of a UUID, the most significant first. -/
def digits (id : Uuid) : List Char :=
  (List.range 32).map fun i => hexDigit (id.toNat / 16 ^ (31 - i) % 16)

/-- The canonical spelling in groups of 8, 4, 4, 4 and 12 lower-case digits. -/
def text (id : Uuid) : String :=
  let d := id.digits
  String.ofList (d.take 8 ++ '-' :: (d.drop 8).take 4 ++ '-' :: (d.drop 12).take 4 ++
    '-' :: (d.drop 16).take 4 ++ '-' :: d.drop 20)

/-- Read the given number of bytes. A hyphen may follow every second byte but the last. -/
def readBytes : ℕ → List Char → ℕ → Option (ℕ × List Char)
  | 0, rest, value => some (value, rest)
  | n + 1, a :: b :: rest, value => do
    let high ← hexValue a
    let low ← hexValue b
    let rest := if n % 2 = 0 ∧ 0 < n ∧ rest.head? = some '-' then rest.tail else rest
    readBytes n rest (value * 256 + high * 16 + low)
  | _ + 1, _, _ => none

/-- PostgreSQL's reading of a `uuid` text: digits in either case, optional hyphens
and optional braces. -/
def parse (text : String) : Option Uuid :=
  match text.toList with
  | '{' :: rest => do
    let (value, rest) ← readBytes 16 rest 0
    if rest = ['}'] then some (BitVec.ofNat 128 value) else none
  | chars => do
    let (value, rest) ← readBytes 16 chars 0
    if rest = [] then some (BitVec.ofNat 128 value) else none

/-- An identifier has 32 digits. -/
theorem digits_length (id : Uuid) : id.digits.length = 32 := by
  simp [digits]

/-- With its four hyphens an identifier has 36 characters. -/
theorem text_length (id : Uuid) : id.text.toList.length = 36 := by
  simp [text, digits_length]

/-- The digit of a place. -/
def place (value i : ℕ) : Char := hexDigit (value / 16 ^ i % 16)

/-- Two digits make one byte, and a hyphen may follow every second byte. -/
theorem readBytes_place (value n : ℕ) (rest : List Char) :
    readBytes (n + 1) (place value (2 * n + 1) :: place value (2 * n) :: rest)
      (value / 256 ^ (n + 1)) =
      readBytes n (if n % 2 = 0 ∧ 0 < n ∧ rest.head? = some '-' then rest.tail else rest)
        (value / 256 ^ n) := by
  have hvalue : value / 256 ^ (n + 1) * 256 + value / 16 ^ (2 * n + 1) % 16 * 16 +
      value / 16 ^ (2 * n) % 16 = value / 256 ^ n := by
    have hsquare : 256 ^ n = 16 ^ (2 * n) := by rw [Nat.pow_mul]
    rw [Nat.pow_succ, Nat.pow_succ, ← Nat.div_div_eq_div_mul, ← Nat.div_div_eq_div_mul, hsquare]
    omega
  rw [readBytes, place, place, hexValue_hexDigit (Nat.mod_lt _ (by decide)),
    hexValue_hexDigit (Nat.mod_lt _ (by decide)), ← hvalue]
  rfl

/-- A digit is no hyphen. -/
theorem head_place (value i : ℕ) (rest : List Char) :
    (place value i :: rest).head? ≠ some '-' := fun h =>
  (hexDigit_plain (Nat.mod_lt (value / 16 ^ i) (by decide))).1 (Option.some.inj h)

/-- Two digits make one byte when a digit follows. -/
theorem readBytes_places {value n : ℕ} (i : ℕ) (rest : List Char) :
    readBytes (n + 1)
      (place value (2 * n + 1) :: place value (2 * n) :: place value i :: rest)
      (value / 256 ^ (n + 1)) = readBytes n (place value i :: rest) (value / 256 ^ n) := by
  rw [readBytes_place, if_neg fun h => head_place value i rest h.2.2]

/-- Two digits make one byte when a hyphen follows, which is passed over. -/
theorem readBytes_hyphen {value n : ℕ} (rest : List Char) (heven : n % 2 = 0) (hpos : 0 < n) :
    readBytes (n + 1) (place value (2 * n + 1) :: place value (2 * n) :: '-' :: rest)
      (value / 256 ^ (n + 1)) = readBytes n rest (value / 256 ^ n) := by
  rw [readBytes_place, if_pos ⟨heven, hpos, rfl⟩, List.tail_cons]

/-- The canonical spelling denotes the identifier. -/
theorem parse_text (id : Uuid) : parse id.text = some id := by
  have htext : id.text.toList = [place id.toNat 31, place id.toNat 30, place id.toNat 29,
      place id.toNat 28, place id.toNat 27, place id.toNat 26, place id.toNat 25,
      place id.toNat 24, '-', place id.toNat 23, place id.toNat 22, place id.toNat 21,
      place id.toNat 20, '-', place id.toNat 19, place id.toNat 18, place id.toNat 17,
      place id.toNat 16, '-', place id.toNat 15, place id.toNat 14, place id.toNat 13,
      place id.toNat 12, '-', place id.toNat 11, place id.toNat 10, place id.toNat 9,
      place id.toNat 8, place id.toNat 7, place id.toNat 6, place id.toNat 5, place id.toNat 4,
      place id.toNat 3, place id.toNat 2, place id.toNat 1, place id.toNat 0] := by
    simp only [text, String.toList_ofList]
    rfl
  have hread : readBytes (15 + 1) id.text.toList (id.toNat / 256 ^ (15 + 1)) =
      some (id.toNat, []) := by
    rw [htext, readBytes_places (n := 15), readBytes_places (n := 14), readBytes_places (n := 13),
      readBytes_hyphen (n := 12) _ (by decide) (by decide),
      readBytes_places (n := 11), readBytes_hyphen (n := 10) _ (by decide) (by decide),
      readBytes_places (n := 9), readBytes_hyphen (n := 8) _ (by decide) (by decide),
      readBytes_places (n := 7), readBytes_hyphen (n := 6) _ (by decide) (by decide),
      readBytes_places (n := 5), readBytes_places (n := 4), readBytes_places (n := 3),
      readBytes_places (n := 2), readBytes_places (n := 1), readBytes_place (n := 0)]
    simp [readBytes]
  rw [Nat.div_eq_of_lt (lt_of_lt_of_eq id.isLt (by decide))] at hread
  unfold parse
  split
  · next rest heq =>
    rw [htext] at heq
    exact absurd (List.cons.inj heq).1
      (hexDigit_plain (Nat.mod_lt (id.toNat / 16 ^ 31) (by decide))).2
  · rw [hread]
    simp

/-- Identifiers with the same text are the same, since parsing reads the text back. -/
theorem text_injective : Function.Injective text := fun a b h =>
  Option.some.inj ((parse_text a).symm.trans ((congrArg parse h).trans (parse_text b)))

end Uuid

/-- The hyphen positions of the canonical spelling. -/
def hyphenPositions : List ℕ := [8, 13, 18, 23]

/-- `validID`: 36 characters with hyphens in the canonical positions and
hexadecimal digits of either case elsewhere. -/
def validID (value : String) : Bool :=
  let chars := value.toList
  chars.length = 36 && value.utf8ByteSize = 36 &&
    chars.zipIdx.all fun entry =>
      if entry.2 ∈ hyphenPositions then entry.1 = '-' else (hexValue entry.1).isSome

/-- `validDigest`: 64 lower-case hexadecimal characters. -/
def validDigest (digest : String) : Bool :=
  digest.utf8ByteSize = 64 &&
    digest.toList.all fun c => ('0' ≤ c && c ≤ '9') || ('a' ≤ c && c ≤ 'f')

/-- `newID`: random bits with the version and variant bits of a random UUID. -/
def newID (random : BitVec 128) : Uuid :=
  random &&& ~~~((0xf0 : Uuid) <<< 72) &&& ~~~((0xc0 : Uuid) <<< 56) |||
    ((0x40 : Uuid) <<< 72) ||| ((0x80 : Uuid) <<< 56)

example : (newID 0).text = "00000000-0000-4000-8000-000000000000" := by decide +kernel

example : (Uuid.parse "0000A00000004000-8000-00000000000b").map Uuid.text =
    some "0000a000-0000-4000-8000-00000000000b" := by decide +kernel

end Tracewake.Hosted
