import Tracewake.JsonText.Number
import Mathlib.Data.Char
import Mathlib.Data.List.Lex
import Mathlib.Data.List.Infix

/-!
# UTF-8

The UTF-8 form of a text, and its reader. The strict reader refuses bytes that are no
form of a text; the lossy one replaces each byte at which no character can be read. The
form orders texts as their characters do.
-/

namespace Tracewake.JsonText.Utf8

/-- The values of the bytes of a code point. -/
def codeBytes (n : ℕ) : List ℕ :=
  if n < 0x80 then [n]
  else if n < 0x800 then [0xc0 + n / 0x40, 0x80 + n % 0x40]
  else if n < 0x10000 then [0xe0 + n / 0x1000, 0x80 + n / 0x40 % 0x40, 0x80 + n % 0x40]
  else [0xf0 + n / 0x40000, 0x80 + n / 0x1000 % 0x40, 0x80 + n / 0x40 % 0x40, 0x80 + n % 0x40]

/-- The bytes of a character. -/
def encodeChar (c : Char) : List UInt8 :=
  (codeBytes c.toNat).map UInt8.ofNat

/-- The bytes of a text. -/
def encode (s : Text) : List UInt8 :=
  s.flatMap encodeChar

/-- The six bits of a continuation byte. -/
def tailBits (b : UInt8) : Option ℕ :=
  if 0x80 ≤ b.toNat ∧ b.toNat < 0xc0 then some (b.toNat - 0x80) else none

/-- The character of a code point that needs as many bytes as were read. -/
def scalar (least n : ℕ) : Option Char :=
  if least ≤ n ∧ n.isValidChar then some (Char.ofNat n) else none

/-- The character at the front of some bytes. -/
def decodeChar : List UInt8 → Option (Char × List UInt8)
  | [] => none
  | a :: rest =>
    if a.toNat < 0x80 then some (Char.ofNat a.toNat, rest)
    else if a.toNat < 0xc0 then none
    else if a.toNat < 0xe0 then
      match rest with
      | b :: rest => do
        let x ← tailBits b
        let char ← scalar 0x80 (0x40 * (a.toNat - 0xc0) + x)
        some (char, rest)
      | [] => none
    else if a.toNat < 0xf0 then
      match rest with
      | b :: c :: rest => do
        let x ← tailBits b
        let y ← tailBits c
        let char ← scalar 0x800 (0x1000 * (a.toNat - 0xe0) + 0x40 * x + y)
        some (char, rest)
      | _ => none
    else if a.toNat < 0xf8 then
      match rest with
      | b :: c :: d :: rest => do
        let x ← tailBits b
        let y ← tailBits c
        let z ← tailBits d
        let char ← scalar 0x10000 (0x40000 * (a.toNat - 0xf0) + 0x1000 * x + 0x40 * y + z)
        some (char, rest)
      | _ => none
    else none

/-- The characters of some bytes. `bad` replaces a byte at which no character stands. -/
def decodeFrom (bad : Option Char) : ℕ → List UInt8 → Option Text
  | _, [] => some []
  | 0, _ :: _ => none
  | n + 1, a :: rest =>
    match decodeChar (a :: rest) with
    | some (c, rest) => (decodeFrom bad n rest).map (c :: ·)
    | none => bad.bind fun c => (decodeFrom bad n rest).map (c :: ·)

/-- The text of some bytes. -/
def decode (bad : Option Char) (bytes : List UInt8) : Option Text :=
  decodeFrom bad bytes.length bytes

/-- A character is no surrogate, and its code point is in range. -/
theorem char_bounds (c : Char) :
    (c.toNat < 0xd800 ∨ 0xe000 ≤ c.toNat) ∧ c.toNat < 0x110000 := by
  have hvalid := c.valid
  simp only [UInt32.isValidChar, Nat.isValidChar] at hvalid
  have hnat : c.toNat = c.val.toNat := rfl
  omega

/-- A continuation byte gives its six bits back. -/
theorem tailBits_ofNat {n : ℕ} (h : n < 0x40) : tailBits (UInt8.ofNat (0x80 + n)) = some n := by
  have hvalue : (UInt8.ofNat (0x80 + n)).toNat = 0x80 + n := by
    rw [UInt8.toNat_ofNat']
    omega
  rw [tailBits, hvalue, if_pos (by omega), Nat.add_sub_cancel_left]

/-- The code point of a character is a scalar value. -/
theorem scalar_toNat {least : ℕ} (c : Char) (h : least ≤ c.toNat) :
    scalar least c.toNat = some c := by
  rw [scalar, if_pos ⟨h, c.valid⟩, Char.ofNat_toNat]

/-- Two bytes are decoded as one character. -/
theorem decodeChar_two {a b : UInt8} {x : ℕ} (rest : List UInt8) (hlow : 0xc0 ≤ a.toNat)
    (hhigh : a.toNat < 0xe0) (hb : tailBits b = some x) :
    decodeChar (a :: b :: rest) =
      (scalar 0x80 (0x40 * (a.toNat - 0xc0) + x)).bind fun char => some (char, rest) := by
  simp only [decodeChar, hb, Option.bind_eq_bind, Option.bind_some]
  rw [if_neg (by omega), if_neg (by omega), if_pos hhigh]

/-- Three bytes are decoded as one character. -/
theorem decodeChar_three {a b c : UInt8} {x y : ℕ} (rest : List UInt8) (hlow : 0xe0 ≤ a.toNat)
    (hhigh : a.toNat < 0xf0) (hb : tailBits b = some x) (hc : tailBits c = some y) :
    decodeChar (a :: b :: c :: rest) =
      (scalar 0x800 (0x1000 * (a.toNat - 0xe0) + 0x40 * x + y)).bind
        fun char => some (char, rest) := by
  simp only [decodeChar, hb, hc, Option.bind_eq_bind, Option.bind_some]
  rw [if_neg (by omega), if_neg (by omega), if_neg (by omega), if_pos hhigh]

/-- Four bytes are decoded as one character. -/
theorem decodeChar_four {a b c d : UInt8} {x y z : ℕ} (rest : List UInt8) (hlow : 0xf0 ≤ a.toNat)
    (hhigh : a.toNat < 0xf8) (hb : tailBits b = some x) (hc : tailBits c = some y)
    (hd : tailBits d = some z) : decodeChar (a :: b :: c :: d :: rest) =
      (scalar 0x10000 (0x40000 * (a.toNat - 0xf0) + 0x1000 * x + 0x40 * y + z)).bind
        fun char => some (char, rest) := by
  simp only [decodeChar, hb, hc, hd, Option.bind_eq_bind, Option.bind_some]
  rw [if_neg (by omega), if_neg (by omega), if_neg (by omega), if_neg (by omega), if_pos hhigh]

/-- The bytes of a character are read back. -/
theorem decodeChar_encodeChar (c : Char) (rest : List UInt8) :
    decodeChar (encodeChar c ++ rest) = some (c, rest) := by
  have hmax := (char_bounds c).2
  have hbyte : ∀ n < 256, (UInt8.ofNat n).toNat = n := by
    intro n hn
    rw [UInt8.toNat_ofNat']
    omega
  unfold encodeChar codeBytes
  split
  · next h =>
    simp only [List.map_cons, List.map_nil, List.singleton_append, decodeChar,
      hbyte c.toNat (by omega), if_pos h, Char.ofNat_toNat]
  · split
    · next h =>
      have ha := hbyte (0xc0 + c.toNat / 0x40) (by omega)
      have hvalue : 0x40 * (0xc0 + c.toNat / 0x40 - 0xc0) + c.toNat % 0x40 = c.toNat := by omega
      refine (decodeChar_two rest (by omega) (by omega) (tailBits_ofNat (by omega))).trans ?_
      rw [ha, hvalue, scalar_toNat c (by omega)]
      rfl
    · split
      · next h =>
        have ha := hbyte (0xe0 + c.toNat / 0x1000) (by omega)
        have hvalue : 0x1000 * (0xe0 + c.toNat / 0x1000 - 0xe0) + 0x40 * (c.toNat / 0x40 % 0x40) +
            c.toNat % 0x40 = c.toNat := by omega
        refine (decodeChar_three rest (by omega) (by omega) (tailBits_ofNat (by omega))
          (tailBits_ofNat (by omega))).trans ?_
        rw [ha, hvalue, scalar_toNat c (by omega)]
        rfl
      · next h =>
        have ha := hbyte (0xf0 + c.toNat / 0x40000) (by omega)
        have hvalue : 0x40000 * (0xf0 + c.toNat / 0x40000 - 0xf0) +
            0x1000 * (c.toNat / 0x1000 % 0x40) + 0x40 * (c.toNat / 0x40 % 0x40) + c.toNat % 0x40 =
            c.toNat := by omega
        refine (decodeChar_four rest (by omega) (by omega) (tailBits_ofNat (by omega))
          (tailBits_ofNat (by omega)) (tailBits_ofNat (by omega))).trans ?_
        rw [ha, hvalue, scalar_toNat c (by omega)]
        rfl

/-- Every code point has bytes. -/
theorem codeBytes_ne_nil (n : ℕ) : codeBytes n ≠ [] := by
  unfold codeBytes
  split
  · simp
  · split
    · simp
    · split <;> simp

/-- Every character has bytes. -/
theorem encodeChar_length_pos (c : Char) : 0 < (encodeChar c).length := by
  rw [encodeChar, List.length_map]
  exact List.length_pos_iff.mpr (codeBytes_ne_nil _)

/-- A text is read back from its bytes. By induction on the text, with enough fuel. -/
theorem decodeFrom_encode (bad : Option Char) (s : Text) {n : ℕ} (hn : s.length ≤ n) :
    decodeFrom bad n (encode s) = some s := by
  induction s generalizing n with
  | nil => cases n <;> rfl
  | cons c s ih =>
    obtain ⟨n, rfl⟩ : ∃ k, n = k + 1 := ⟨n - 1, by simp at hn; omega⟩
    have hread := decodeChar_encodeChar c (encode s)
    have hpos := encodeChar_length_pos c
    have hsplit : encode (c :: s) = encodeChar c ++ encode s := rfl
    rw [hsplit]
    cases hchar : encodeChar c with
    | nil => simp [hchar] at hpos
    | cons a tail =>
      rw [hchar, List.cons_append] at hread
      rw [List.cons_append, decodeFrom, hread]
      simp only [ih (show s.length ≤ n by simpa using hn), Option.map_some]

/-- A text has no more characters than bytes. -/
theorem length_le_encode (s : Text) : s.length ≤ (encode s).length := by
  induction s with
  | nil => simp
  | cons c s ih =>
    have hpos := encodeChar_length_pos c
    simp only [encode, List.flatMap_cons, List.length_append, List.length_cons] at ih ⊢
    omega

/-- The bytes of a text are read back by either reader. -/
@[simp]
theorem decode_encode (bad : Option Char) (s : Text) : decode bad (encode s) = some s :=
  decodeFrom_encode bad s (length_le_encode s)

/-- Different texts have different bytes. -/
theorem encode_injective : Function.Injective encode := by
  intro s t h
  have hs := decode_encode none s
  rw [h, decode_encode] at hs
  exact (Option.some.inj hs).symm

/-- Texts are encoded one after the other. -/
theorem encode_append (s t : Text) : encode (s ++ t) = encode s ++ encode t := by
  simp [encode]

/-! ## Order -/

/-- The bytes of a smaller code point come first, whatever follows them. The cases are the
lengths of the two encodings. -/
theorem codeBytes_lt {n m : ℕ} (h : n < m) (hmax : m < 0x110000) (x y : List ℕ) :
    codeBytes n ++ x < codeBytes m ++ y := by
  have hhead : ∀ {a b : ℕ} {s t : List ℕ}, a < b → a :: s < b :: t := fun hab =>
    List.cons_lt_cons_iff.mpr (.inl hab)
  have hskip : ∀ {a b : ℕ} {s t : List ℕ}, a ≤ b → (a = b → s < t) → a :: s < b :: t := by
    intro a b s t hab htail
    rcases Nat.lt_or_eq_of_le hab with hab | hab
    · exact hhead hab
    · exact List.cons_lt_cons_iff.mpr (.inr ⟨hab, htail hab⟩)
  unfold codeBytes
  split
  · split
    · exact hhead h
    · split
      · exact hhead (by omega)
      · split <;> exact hhead (by omega)
  · split
    · rw [if_neg (by omega)]
      split
      · refine hskip (by omega) fun h1 => ?_
        exact hhead (by omega)
      · split <;> exact hhead (by omega)
    · split
      · rw [if_neg (by omega), if_neg (by omega)]
        split
        · refine hskip (by omega) fun h1 => hskip (by omega) fun h2 => ?_
          exact hhead (by omega)
        · exact hhead (by omega)
      · rw [if_neg (by omega), if_neg (by omega), if_neg (by omega)]
        refine hskip (by omega) fun h1 => hskip (by omega) fun h2 => hskip (by omega) fun h3 => ?_
        exact hhead (by omega)

/-- Bytes are ordered as their numbers. -/
theorem lt_iff_map_toNat {s t : List UInt8} :
    s < t ↔ s.map UInt8.toNat < t.map UInt8.toNat := by
  induction s generalizing t with
  | nil => cases t <;> simp
  | cons a s ih =>
    cases t with
    | nil => simp
    | cons b t =>
      simp only [List.map_cons, List.cons_lt_cons_iff, ih, UInt8.lt_iff_toNat_lt, UInt8.toNat_inj]

/-- The numbers of the bytes are those that the code point has. -/
theorem map_toNat_encodeChar (c : Char) : (encodeChar c).map UInt8.toNat = codeBytes c.toNat := by
  have hmax := (char_bounds c).2
  rw [encodeChar, List.map_map]
  refine (List.map_congr_left fun n hn => ?_).trans (List.map_id _)
  have hbyte : n < 256 := by
    revert hn
    unfold codeBytes
    split
    · intro hn
      obtain rfl := List.mem_singleton.mp hn
      omega
    · split
      · intro hn
        simp only [List.mem_cons, List.not_mem_nil, or_false] at hn
        omega
      · split
        · intro hn
          simp only [List.mem_cons, List.not_mem_nil, or_false] at hn
          omega
        · intro hn
          simp only [List.mem_cons, List.not_mem_nil, or_false] at hn
          omega
  change (UInt8.ofNat n).toNat = n
  rw [UInt8.toNat_ofNat']
  omega

/-- The bytes of a smaller character come first. -/
theorem encodeChar_lt {c d : Char} (h : c < d) (x y : List UInt8) :
    encodeChar c ++ x < encodeChar d ++ y := by
  rw [lt_iff_map_toNat, List.map_append, List.map_append, map_toNat_encodeChar,
    map_toNat_encodeChar]
  exact codeBytes_lt (UInt32.lt_iff_toNat_lt.mp h) (char_bounds d).2 _ _

/-- A common beginning does not change the order. -/
theorem append_lt_append {s t : List UInt8} (l : List UInt8) (h : s < t) : l ++ s < l ++ t := by
  induction l with
  | nil => exact h
  | cons a l ih => exact List.cons_lt_cons_iff.mpr (.inr ⟨rfl, ih⟩)

/-- Texts are ordered as their bytes are. UTF-8 was made so. -/
theorem encode_lt {s t : Text} (h : s < t) : encode s < encode t := by
  induction s generalizing t with
  | nil =>
    cases t with
    | nil => simp at h
    | cons d t =>
      have hpos := encodeChar_length_pos d
      cases hd : encodeChar d with
      | nil => simp [hd] at hpos
      | cons b rest => simp [encode, hd]
  | cons c s ih =>
    cases t with
    | nil => simp at h
    | cons d t =>
      rcases List.cons_lt_cons_iff.mp h with hless | ⟨rfl, hless⟩
      · exact encodeChar_lt hless _ _
      · exact append_lt_append _ (ih hless)

/-- The bytes of texts are in the order of the texts. -/
theorem encode_lt_encode {s t : Text} : encode s < encode t ↔ s < t := by
  constructor
  · intro h
    rcases lt_trichotomy s t with hless | rfl | hgreater
    · exact hless
    · rw [lt_iff_map_toNat] at h
      exact absurd h (lt_irrefl _)
    · have hreverse := encode_lt hgreater
      rw [lt_iff_map_toNat] at h hreverse
      exact absurd (h.trans hreverse) (lt_irrefl _)
  · exact encode_lt

end Tracewake.JsonText.Utf8
