import Mathlib.Algebra.Ring.Int.Defs
import Tracewake.JsonText.Parse
import Tracewake.JsonText.Utf8

/-!
# Canonical result documents

The worker writes its result with `json.dumps`, and the control plane accepts a result
only when it equals its own canonical form of the decoded document. This module holds
both encoders and the decoder, and states when they agree.
-/

namespace Tracewake.Results

open JsonText

/-! ## The control plane -/

/-- `json.Number`: a number token as it was spelled. -/
structure Number where
  text : Text
  valid : isNumber text = true

/-- What `strconv` does with binary floating point numbers: `ParseFloat` fails on
numbers out of range, `FormatFloat` writes the shortest text in format `g` or `f`. -/
structure Strconv where
  Float : Type
  parseFloat : Text → Option Float
  formatFloat : Char → Float → Text

/-- `strconv.Atoi`. -/
def atoi (text : Text) : Option ℤ :=
  let digits := match text with
    | '+' :: rest => rest
    | '-' :: rest => rest
    | rest => rest
  if digits = [] ∨ digits.all Char.isDigit = false then none
  else
    let value := match text with
      | '-' :: _ => -(Nat.ofDigitChars 10 digits 0 : ℤ)
      | _ => Nat.ofDigitChars 10 digits 0
    if -2 ^ 63 ≤ value ∧ value < 2 ^ 63 then some value else none

/-- `canonicalPythonNumber`. -/
def canonicalPythonNumber (floats : Strconv) (number : Number) : Text :=
  let raw := number.text
  if Integral raw then raw
  else
    match floats.parseFloat raw with
    | none => raw
    | some value =>
      let formatted := floats.formatFloat 'g' value
      let formatted :=
        match formatted.dropWhile (· ≠ 'e') with
        | [] => formatted
        | _ :: exponent =>
          match atoi exponent with
          | some exponent =>
            if -4 ≤ exponent ∧ exponent < 16 then floats.formatFloat 'f' value else formatted
          | none => formatted
      if Integral formatted then formatted ++ ['.', '0'] else formatted

/-- One rune of `appendPythonJSONString`. -/
def appendPythonRune (rune : Char) : Text :=
  match rune with
  | '"' => ['\\', '"']
  | '\\' => ['\\', '\\']
  | '\x08' => ['\\', 'b']
  | '\x0c' => ['\\', 'f']
  | '\n' => ['\\', 'n']
  | '\r' => ['\\', 'r']
  | '\t' => ['\\', 't']
  | rune =>
    let n := rune.toNat
    if n < 0x20 then hexEscape n
    else if n ≤ 0x7f then [rune]
    else if n ≤ 0xffff then hexEscape n
    else
      let value := n - 0x10000
      hexEscape (0xd800 + value / 0x400) ++ hexEscape (0xdc00 + value % 0x400)

/-- `sort.Strings` compares the bytes of strings. -/
def lessBytes (a b : Text) : Bool :=
  Utf8.encode a < Utf8.encode b

/-- `appendCanonicalJSON`. -/
def appendCanonicalJSON (floats : Strconv) : Style Number where
  escape := appendPythonRune
  number := canonicalPythonNumber floats

/-- `canonicalResultJSON`. -/
def canonicalResultJSON (floats : Strconv) (document : Json Number) : List UInt8 :=
  Utf8.encode ((document.canon lessBytes).print (appendCanonicalJSON floats) ++ ['\n'])

/-- The replacement character that the decoder puts for what is no character. -/
def replacementChar : Char := '\ufffd'

/-- How `json.Decoder` with `UseNumber` reads strings and numbers. -/
def decoder : Dialect Number where
  lone := some replacementChar
  number token := if h : isNumber token = true then some ⟨token, h⟩ else none

/-- The decoder refuses arrays and objects that nest deeper. -/
def maxNestingDepth : ℕ := 10000

/-- The one JSON value that `validateResultEnvelope` decodes. -/
def decode (raw : List UInt8) : Option (Json Number) := do
  let text ← Utf8.decode (some replacementChar) raw
  let document ← parse decoder text
  if document.depth ≤ maxNestingDepth then some document else none

/-- The document is accepted as canonical. -/
def AcceptsCanonical (floats : Strconv) (raw : List UInt8) (document : Json Number) : Prop :=
  decode raw = some document ∧ canonicalResultJSON floats document = raw

/-! ## The worker -/

/-- `sort_keys` compares the code points of strings. -/
def lessCodePoints (a b : Text) : Bool :=
  a < b

/-- `ensure_ascii`: the characters from the space to the tilde need no escape. -/
def isPrintable (c : Char) : Bool :=
  ' ' ≤ c && c ≤ '~'

/-- `json.dumps(value, sort_keys=True, separators=(",", ":"))` of integers. -/
def dumps : Style ℤ where
  escape := escapeChar isPrintable
  number := printInt

/-- `_canonical`. -/
def canonical (value : Json ℤ) : List UInt8 :=
  Utf8.encode ((value.canon lessCodePoints).print dumps ++ ['\n'])

/-! ## Agreement -/

/-- The control character that the encoders write differently. -/
def delete : Char := '\x7f'

/-- No string and no key of the value contains the character. -/
def WithoutDelete {N : Type} (value : Json N) : Prop :=
  ∀ s ∈ value.strings, delete ∉ s

/-- Both sides order keys alike. -/
theorem lessBytes_eq : lessBytes = lessCodePoints := by
  funext a b
  exact decide_eq_decide.mpr Utf8.encode_lt_encode

/-- Keys are ordered by their code points, which is a strict total order. -/
theorem keyOrder : Json.KeyOrder lessCodePoints where
  irrefl a := decide_eq_false (lt_irrefl a)
  trans a b c hab hbc := by
    simp only [lessCodePoints, decide_eq_true_eq] at hab hbc ⊢
    exact hab.trans hbc
  total a b := by
    simp only [lessCodePoints, decide_eq_true_eq]
    exact lt_trichotomy a b

/-- The number token of an integer. -/
def spell (n : ℤ) : Number :=
  ⟨printInt n, isNumber_printInt n⟩

/-- The integer that a number token without fraction and exponent spells. -/
def Number.toInt (n : Number) : ℤ :=
  readInt n.text

/-- The control plane writes runes as the worker writes characters, except for `DEL`. -/
theorem appendPythonRune_eq {c : Char} (h : c ≠ delete) :
    appendPythonRune c = escapeChar isPrintable c := by
  unfold appendPythonRune escapeChar
  split
  · rfl
  · rfl
  · rfl
  · rfl
  · rfl
  · rfl
  · rfl
  · next hquote hslash hback hform hline hreturn htab =>
    have hdelete : c.toNat ≠ 0x7f := by
      intro hc
      apply h
      rw [← Char.ofNat_toNat c, hc]
      rfl
    have hprintable : isPrintable c = (0x20 ≤ c.toNat && c.toNat ≤ 0x7e) := by
      simp [isPrintable, Char.le_def, UInt32.le_iff_toNat_le]
    have hraw : escapeChar isPrintable c = if isPrintable c then [c] else unicodeEscape c := by
      unfold escapeChar
      split
      · exact absurd rfl hquote
      · exact absurd rfl hslash
      · exact absurd rfl hline
      · exact absurd rfl hreturn
      · exact absurd rfl htab
      · exact absurd rfl hback
      · exact absurd rfl hform
      · rfl
    change _ = escapeChar isPrintable c
    simp only [hraw, hprintable, unicodeEscape, Bool.and_eq_true, decide_eq_true_eq]
    by_cases hcontrol : c.toNat < 0x20
    · rw [if_pos hcontrol, if_neg (by omega), if_pos (by omega)]
    · rw [if_neg hcontrol]
      by_cases hascii : c.toNat ≤ 0x7f
      · rw [if_pos hascii, if_pos (by omega)]
      · rw [if_neg hascii, if_neg (show ¬ (0x20 ≤ c.toNat ∧ c.toNat ≤ 0x7e) by omega)]
        by_cases hbmp : c.toNat ≤ 0xffff
        · rw [if_pos hbmp, if_pos (by omega)]
        · rw [if_neg hbmp, if_neg (by omega)]

/-- A printable character is no control character. -/
theorem isPrintable_not_lt {c : Char} (h : isPrintable c = true) : ¬ c < ' ' := by
  simp only [isPrintable, Bool.and_eq_true, decide_eq_true_eq] at h
  exact not_lt.mpr h.1

/-- Python writes the delete character as it is. -/
theorem appendPythonRune_delete : appendPythonRune delete = [delete] := by
  decide

/-- The decoder reads back what either side writes. -/
theorem readChar_appendPythonRune (lone : Option Char) (c : Char) (rest : Text) :
    readChar lone (appendPythonRune c ++ rest) = some (c, rest) := by
  by_cases hc : c = delete
  · subst hc
    rw [appendPythonRune_delete]
    rfl
  · rw [appendPythonRune_eq hc]
    exact readChar_escapeChar lone (fun _ => isPrintable_not_lt) c rest

/-- A number is read back from its text. -/
theorem number_reads (n : Number) : decoder.number n.text = some n :=
  dif_pos n.valid

/-- The control plane's escapes around the tokens as they were spelled. -/
def tokens : Style Number where
  escape := appendPythonRune
  number := Number.text

/-- The worker's escapes around the tokens as they were spelled. -/
def dumpedTokens : Style Number where
  escape := escapeChar isPrintable
  number := Number.text

/-- What the Python encoder writes is read back. -/
theorem tokens_reads : tokens.Reads decoder fun _ => True where
  char := readChar_appendPythonRune _
  closes c := by
    by_cases hc : c = delete
    · subst hc
      decide
    · rw [show tokens.escape c = escapeChar isPrintable c from appendPythonRune_eq hc]
      exact escapeChar_head _ c
  number n _ := number_reads n
  token n _ := isNumber_isTokenChar n.valid
  starts n _ := isNumber_head n.valid

/-- What the Go encoder writes is read back. -/
theorem dumpedTokens_reads : dumpedTokens.Reads decoder fun _ => True where
  char := readChar_escapeChar _ fun _ => isPrintable_not_lt
  closes := escapeChar_head _
  number n _ := number_reads n
  token n _ := isNumber_isTokenChar n.valid
  starts n _ := isNumber_head n.valid

/-- A line in either encoding is decoded to its value. -/
theorem decode_line {style : Style Number} (h : style.Reads decoder fun _ => True)
    {v : Json Number} : decode (Utf8.encode (v.print style ++ ['\n'])) =
      if v.depth ≤ maxNestingDepth then some v else none := by
  have hparse := parse_print_space h v (fun _ _ => trivial) (show skip ['\n'] = [] by decide)
    (by rintro c hc; obtain rfl := Option.some.inj hc; decide)
  simp only [decode, Utf8.decode_encode, Option.bind_eq_bind, Option.bind_some, hparse]

/-- Integers keep their spelling. -/
theorem print_integral (floats : Strconv) {v : Json Number}
    (h : ∀ n ∈ v.numbers, Integral n.text) :
    v.print (appendCanonicalJSON floats) = v.print tokens :=
  Json.print_congr v (fun _ _ _ _ => rfl) fun n hn => if_pos (h n hn)

/-- No escape has a delete character. -/
theorem delete_notMem_hexEscape (n : ℕ) : delete ∉ hexEscape n := by
  have hdigit : ∀ k < 16, Nat.digitChar k ≠ delete := by decide
  have hmod : ∀ k : ℕ, delete ≠ Nat.digitChar (k % 16) := fun k =>
    (hdigit (k % 16) (by omega)).symm
  simp only [hexEscape, hexDigits, List.mem_cons, List.not_mem_nil, or_false, hmod, or_self]
  decide

/-- An escaped character is no delete character. -/
theorem delete_notMem_escape (c : Char) : delete ∉ escapeChar isPrintable c := by
  unfold escapeChar
  split
  · decide
  · decide
  · decide
  · decide
  · decide
  · decide
  · decide
  · split
    · next hprintable =>
      intro hmem
      obtain rfl := List.mem_singleton.mp hmem
      exact absurd hprintable (by decide)
    · unfold unicodeEscape
      split
      · exact delete_notMem_hexEscape _
      · intro hmem
        rcases List.mem_append.mp hmem with hmem | hmem
        · exact delete_notMem_hexEscape _ hmem
        · exact delete_notMem_hexEscape _ hmem

/-- The worker never writes `DEL`. -/
theorem delete_notMem_dumped (v : Json Number) : delete ∉ v.print dumpedTokens := by
  intro hmem
  refine Json.print_all (Q := (· ≠ delete)) v (Json.forall_of_all (by decide)) ?_ ?_ delete hmem rfl
  · rintro s _ d _ c hc rfl
    exact delete_notMem_escape d hc
  · rintro n _ c hc rfl
    have htoken := List.all_eq_true.mp (isNumber_isTokenChar n.valid) delete hc
    exact absurd htoken (by decide)

/-- The two escapes print a value alike exactly where it has no `DEL`. -/
theorem print_tokens_iff (v : Json Number) :
    v.print tokens = v.print dumpedTokens ↔ WithoutDelete v := by
  constructor
  · intro h s hs hmem
    apply delete_notMem_dumped v
    rw [← h]
    exact Json.mem_print v hs hmem (by decide)
  · intro h
    refine Json.print_congr v (fun s hs c hc => appendPythonRune_eq ?_) fun _ _ => rfl
    rintro rfl
    exact h s hs hc

/-- The worker's document holds the tokens of its integers. -/
theorem canonical_eq (v : Json ℤ) : canonical v =
    Utf8.encode (((v.canon lessCodePoints).map spell).print dumpedTokens ++ ['\n']) := by
  rw [canonical, Json.print_map]
  rfl

/-- Different lines have different bytes. -/
theorem line_injective {s t : Text} (h : Utf8.encode (s ++ ['\n']) = Utf8.encode (t ++ ['\n'])) :
    s = t :=
  List.append_cancel_right (Utf8.encode_injective h)

/-- The control plane's canonical form of the worker's document. -/
theorem reencode_canonical (floats : Strconv) (v : Json ℤ) :
    (decode (canonical v)).map (canonicalResultJSON floats) = some (canonical v) ↔
      (v.canon lessCodePoints).depth ≤ maxNestingDepth ∧
        WithoutDelete (v.canon lessCodePoints) := by
  let document := (v.canon lessCodePoints).map spell
  have hdepth : document.depth = (v.canon lessCodePoints).depth := Json.map_depth _ _
  have hstrings : document.strings = (v.canon lessCodePoints).strings := Json.map_strings _ _
  have hcanon : document.canon lessBytes = document := by
    rw [lessBytes_eq, ← Json.map_canon, Json.canon_canon keyOrder]
  have hintegral : ∀ n ∈ document.numbers, Integral n.text := by
    intro n hn
    rw [Json.map_numbers, List.mem_map] at hn
    obtain ⟨k, _, rfl⟩ := hn
    exact integral_printInt k
  have hform : canonicalResultJSON floats document =
      Utf8.encode (document.print tokens ++ ['\n']) := by
    rw [canonicalResultJSON, hcanon, print_integral floats hintegral]
  have hsame : canonicalResultJSON floats document = canonical v ↔ WithoutDelete document := by
    rw [hform, canonical_eq, ← print_tokens_iff]
    constructor
    · exact line_injective
    · intro h
      rw [h]
  have hwithout : WithoutDelete document ↔ WithoutDelete (v.canon lessCodePoints) := by
    rw [WithoutDelete, hstrings]
    rfl
  rw [canonical_eq, decode_line dumpedTokens_reads, ← canonical_eq, hdepth, ← hwithout, ← hsame]
  split
  · next h => simp [h, document]
  · next h => simp [h]

/-- A document that the control plane accepts is canonical, and its integers are
spelled in it as they are. -/
theorem AcceptsCanonical.line {floats : Strconv} {raw : List UInt8} {document : Json Number}
    (h : AcceptsCanonical floats raw document) (hintegral : ∀ n ∈ document.numbers, Integral n.text) :
    raw = Utf8.encode (document.print tokens ++ ['\n']) ∧
      document.canon lessCodePoints = document := by
  obtain ⟨hdecode, hcanonical⟩ := h
  have hform : raw = Utf8.encode ((document.canon lessCodePoints).print tokens ++ ['\n']) := by
    rw [← hcanonical, canonicalResultJSON, lessBytes_eq]
    rw [print_integral floats fun n hn => hintegral n (Json.canon_numbers hn)]
  have hcanon : document.canon lessCodePoints = document := by
    rw [hform, decode_line tokens_reads] at hdecode
    split at hdecode
    · exact Option.some.inj hdecode
    · simp at hdecode
  rw [hcanon] at hform
  exact ⟨hform, hcanon⟩

/-- The token of an integer is never `-0`. -/
theorem printInt_ne (n : ℤ) : printInt n ≠ ['-', '0'] := by
  intro h
  have hzero : n = 0 := by
    rw [← readInt_printInt n, h]
    decide
  subst hzero
  exact absurd h (by decide)

/-- A document that the control plane accepts is the worker's encoding of its value
exactly where it has no `DEL` and no negative zero. -/
theorem AcceptsCanonical.eq_canonical_iff {floats : Strconv} {raw : List UInt8}
    {document : Json Number} (h : AcceptsCanonical floats raw document)
    (hintegral : ∀ n ∈ document.numbers, Integral n.text) :
    raw = canonical (document.map Number.toInt) ↔
      WithoutDelete document ∧ ∀ n ∈ document.numbers, n.text ≠ ['-', '0'] := by
  obtain ⟨hraw, hcanon⟩ := h.line hintegral
  have hvalue : canonical (document.map Number.toInt) =
      Utf8.encode ((document.map fun n => spell n.toInt).print dumpedTokens ++ ['\n']) := by
    rw [canonical_eq, ← Json.map_canon, hcanon, Json.map_map]
  have hstrings : (document.map fun n => spell n.toInt).strings = document.strings :=
    Json.map_strings _ _
  rw [hraw, hvalue]
  constructor
  · intro hline
    have hprint := line_injective hline
    have hdelete : WithoutDelete document := by
      intro s hs hmem
      refine delete_notMem_dumped (document.map fun n => spell n.toInt) ?_
      rw [← hprint]
      exact Json.mem_print document hs hmem (by decide)
    refine ⟨hdelete, fun n hn => ?_⟩
    have hsame : (document.map fun n => spell n.toInt) = document := by
      have hread := parse_print dumpedTokens_reads (document.map fun n => spell n.toInt)
        fun _ _ => trivial
      rw [← hprint, parse_print tokens_reads document fun _ _ => trivial] at hread
      exact (Option.some.inj hread).symm
    have hspell := congrArg Number.text (Json.eq_of_map_eq_self hsame hn)
    rw [← hspell]
    exact printInt_ne _
  · rintro ⟨hdelete, hzero⟩
    have hsame : (document.map fun n => spell n.toInt) = document := by
      rw [Json.map_congr (g := fun n => n) document, Json.map_id']
      intro n hn
      have htext : (spell n.toInt).text = n.text :=
        printInt_readInt n.valid (hintegral n hn) (hzero n hn)
      cases hspell : spell n.toInt with
      | mk text valid =>
        rw [hspell] at htext
        cases n with
        | mk text' valid' =>
          simp only at htext
          subst htext
          rfl
    rw [hsame, (print_tokens_iff document).mpr hdelete]

/-- Floating point numbers that are never read. -/
def noFloats : Strconv where
  Float := Empty
  parseFloat _ := none
  formatFloat _ value := nomatch value

/-- A result with one member. -/
def demoDocument : Json Number :=
  .obj [(['a'], .num (spell 10))]

/-- The document of the example is accepted. -/
theorem demoDocument_accepted :
    AcceptsCanonical noFloats (Utf8.encode (demoDocument.print tokens ++ ['\n'])) demoDocument := by
  constructor
  · rw [decode_line tokens_reads]
    rfl
  · rfl

end Tracewake.Results
