import Tracewake.Encodings.Hex
import Tracewake.JsonText.Print
import Tracewake.JsonText.Utf8

/-!
# Reading values

The grammar of JSON as a reader. A dialect says what a number token denotes and which
character stands for half of a surrogate pair. Reading what a style prints gives the
value back when the dialect reads the style's characters and numbers.
-/

namespace Tracewake.JsonText

open Encodings

/-- Skip white space. -/
def skip (text : Text) : Text :=
  text.dropWhile fun c => c = ' ' || c = '\t' || c = '\n' || c = '\r'

/-- The code unit that four digits denote. -/
def readHex : Text → Option (ℕ × Text)
  | a :: b :: c :: d :: rest => do
    let a ← hexValue a
    let b ← hexValue b
    let c ← hexValue c
    let d ← hexValue d
    return (a * 4096 + b * 256 + c * 16 + d, rest)
  | _ => none

/-- The second half of a surrogate pair. -/
def readLow : Text → Option (ℕ × Text)
  | '\\' :: 'u' :: rest =>
    (readHex rest).filter fun unit => 0xdc00 ≤ unit.1 && unit.1 < 0xe000
  | _ => none

/-- The character after `\u`. `lone` stands for an unpaired surrogate. -/
def readUnicode (lone : Option Char) (text : Text) : Option (Char × Text) :=
  match readHex text with
  | none => none
  | some (unit, rest) =>
    if unit < 0xd800 ∨ 0xe000 ≤ unit then some (Char.ofNat unit, rest)
    else if unit < 0xdc00 then
      match readLow rest with
      | some (low, rest) =>
        some (Char.ofNat (0x10000 + (unit - 0xd800) * 0x400 + (low - 0xdc00)), rest)
      | none => lone.map fun c => (c, rest)
    else lone.map fun c => (c, rest)

/-- The character that a two-character escape stands for. -/
def shortEscape : Char → Option Char
  | '"' => some '"'
  | '\\' => some '\\'
  | '/' => some '/'
  | 'b' => some '\x08'
  | 'f' => some '\x0c'
  | 'n' => some '\n'
  | 'r' => some '\r'
  | 't' => some '\t'
  | _ => none

/-- One character of a string. -/
def readChar (lone : Option Char) : Text → Option (Char × Text)
  | '\\' :: 'u' :: rest => readUnicode lone rest
  | '\\' :: c :: rest => (shortEscape c).map fun d => (d, rest)
  | c :: rest => if c = '"' ∨ c = '\\' ∨ c < ' ' then none else some (c, rest)
  | [] => none

/-- The rest of a string after its opening quotation mark. -/
def readString (lone : Option Char) : ℕ → Text → Option (Text × Text)
  | 0, _ => none
  | _ + 1, '"' :: rest => some ([], rest)
  | n + 1, text => do
    let (c, rest) ← readChar lone text
    let (s, rest) ← readString lone n rest
    return (c :: s, rest)

/-- What a reader makes of lone surrogates and of number tokens. -/
structure Dialect (N : Type) where
  lone : Option Char
  number : Text → Option N

variable {N : Type}

/-- A literal or a number. -/
def readToken (d : Dialect N) (text : Text) : Option (Json N × Text) :=
  let token := text.takeWhile isTokenChar
  let rest := text.dropWhile isTokenChar
  if token = ['n', 'u', 'l', 'l'] then some (.null, rest)
  else if token = ['t', 'r', 'u', 'e'] then some (.bool true, rest)
  else if token = ['f', 'a', 'l', 's', 'e'] then some (.bool false, rest)
  else (d.number token).map fun n => (.num n, rest)

mutual

/-- A value and the text behind it. -/
def readValue (d : Dialect N) : ℕ → Text → Option (Json N × Text)
  | 0, _ => none
  | n + 1, text =>
    match skip text with
    | '"' :: rest => (readString d.lone (rest.length + 1) rest).map fun (s, rest) => (.str s, rest)
    | '[' :: rest =>
      match skip rest with
      | ']' :: rest => some (.arr [], rest)
      | rest => (readItems d n rest).map fun (items, rest) => (.arr items, rest)
    | '{' :: rest =>
      match skip rest with
      | '}' :: rest => some (.obj [], rest)
      | rest => (readFields d n rest).map fun (fields, rest) => (.obj fields, rest)
    | rest => readToken d rest

/-- The items of an array that is not empty. -/
def readItems (d : Dialect N) : ℕ → Text → Option (List (Json N) × Text)
  | 0, _ => none
  | n + 1, text => do
    let (v, rest) ← readValue d n text
    match skip rest with
    | ',' :: rest => (readItems d n rest).map fun (items, rest) => (v :: items, rest)
    | ']' :: rest => some ([v], rest)
    | _ => none

/-- The fields of an object that is not empty. -/
def readFields (d : Dialect N) : ℕ → Text → Option (List (Text × Json N) × Text)
  | 0, _ => none
  | n + 1, text =>
    match skip text with
    | '"' :: rest => do
      let (key, rest) ← readString d.lone (rest.length + 1) rest
      match skip rest with
      | ':' :: rest => do
        let (v, rest) ← readValue d n rest
        match skip rest with
        | ',' :: rest => (readFields d n rest).map fun (fields, rest) => ((key, v) :: fields, rest)
        | '}' :: rest => some ([(key, v)], rest)
        | _ => none
      | _ => none
    | _ => none

end

/-- The one value of a text. -/
def parse (d : Dialect N) (text : Text) : Option (Json N) :=
  match readValue d (text.length + 1) text with
  | some (v, rest) => if skip rest = [] then some v else none
  | none => none

/-! ## Reading what was printed -/

/-- Four hexadecimal digits are read back. -/
theorem readHex_hexDigits {n : ℕ} (h : n < 0x10000) (rest : Text) :
    readHex (hexDigits n ++ rest) = some (n, rest) := by
  simp only [hexDigits, List.cons_append, List.nil_append, readHex,
    hexValue_digitChar (show n / 4096 % 16 < 16 by omega),
    hexValue_digitChar (show n / 256 % 16 < 16 by omega),
    hexValue_digitChar (show n / 16 % 16 < 16 by omega),
    hexValue_digitChar (show n % 16 < 16 by omega)]
  have hsum : n / 4096 % 16 * 4096 + n / 256 % 16 * 256 + n / 16 % 16 * 16 + n % 16 = n := by omega
  simp [hsum]

/-- An escape that is no surrogate is read as its character. -/
theorem readUnicode_plain (lone : Option Char) {n : ℕ} (h : n < 0xd800 ∨ 0xe000 ≤ n)
    (hmax : n < 0x10000) (rest : Text) :
    readUnicode lone (hexDigits n ++ rest) = some (Char.ofNat n, rest) := by
  simp only [readUnicode, readHex_hexDigits hmax, if_pos h]

/-- The second half of a pair is read back. -/
theorem readLow_hexEscape {n : ℕ} (h : 0xdc00 ≤ n) (hmax : n < 0xe000) (rest : Text) :
    readLow (hexEscape n ++ rest) = some (n, rest) := by
  have hlow : (0xdc00 ≤ n && n < 0xe000) = true := by simp [h, hmax]
  simp only [hexEscape, List.cons_append, readLow, readHex_hexDigits (show n < 0x10000 by omega),
    Option.filter_some, hlow, if_true]

/-- An escaped pair is read as one character. -/
theorem readUnicode_pair (lone : Option Char) {high low : ℕ} (hhigh : 0xd800 ≤ high)
    (hmax : high < 0xdc00) (hlow : 0xdc00 ≤ low) (hend : low < 0xe000) (rest : Text) :
    readUnicode lone (hexDigits high ++ (hexEscape low ++ rest)) =
      some (Char.ofNat (0x10000 + (high - 0xd800) * 0x400 + (low - 0xdc00)), rest) := by
  have hsurrogate : ¬ (high < 0xd800 ∨ 0xe000 ≤ high) := by omega
  simp only [readUnicode, readHex_hexDigits (show high < 0x10000 by omega), if_neg hsurrogate,
    if_pos hmax, readLow_hexEscape hlow hend]

/-- The escape by code units stands for its character. -/
theorem readChar_unicodeEscape (lone : Option Char) (c : Char) (rest : Text) :
    readChar lone (unicodeEscape c ++ rest) = some (c, rest) := by
  obtain ⟨hsurrogate, hmax⟩ := Utf8.char_bounds c
  unfold unicodeEscape
  split
  · next hbmp =>
    rw [hexEscape, List.cons_append, List.cons_append, readChar,
      readUnicode_plain lone hsurrogate hbmp, Char.ofNat_toNat]
  · next hastral =>
    have hvalue : 0x10000 + (0xd800 + (c.toNat - 0x10000) / 0x400 - 0xd800) * 0x400 +
        (0xdc00 + (c.toNat - 0x10000) % 0x400 - 0xdc00) = c.toNat := by omega
    rw [List.append_assoc, hexEscape, List.cons_append, List.cons_append, readChar,
      readUnicode_pair lone (by omega) (by omega) (by omega) (by omega), hvalue,
      Char.ofNat_toNat]

/-- A style's characters are read back one by one. -/
theorem readChar_escapeChar (lone : Option Char) {raw : Char → Bool}
    (hraw : ∀ c, raw c = true → ¬ c < ' ') (c : Char) (rest : Text) :
    readChar lone (escapeChar raw c ++ rest) = some (c, rest) := by
  unfold escapeChar
  split
  · rfl
  · rfl
  · rfl
  · rfl
  · rfl
  · rfl
  · rfl
  · next hquote hslash _ _ _ _ _ =>
    split
    · next hc =>
      have hcontrol := hraw c hc
      rw [List.singleton_append, readChar.eq_def]
      split
      · next heq => exact absurd (List.cons.inj heq).1 hslash
      · next heq => exact absurd (List.cons.inj heq).1 hslash
      · next d tail _ _ heq =>
        obtain ⟨rfl, rfl⟩ := List.cons.inj heq
        rw [if_neg]
        rintro (heq | heq | hless)
        · exact hquote heq
        · exact hslash heq
        · exact hcontrol hless
      · next heq => simp at heq
    · exact readChar_unicodeEscape lone c rest

/-- The dialect reads the characters of the style, and the numbers that satisfy `P`. -/
structure Style.Reads (style : Style N) (d : Dialect N) (P : N → Prop) : Prop where
  char : ∀ c rest, readChar d.lone (style.escape c ++ rest) = some (c, rest)
  closes : ∀ c, (style.escape c).head? ≠ some '"'
  number : ∀ n, P n → d.number (style.number n) = some n
  token : ∀ n, P n → (style.number n).all isTokenChar = true
  starts : ∀ n, P n → ∃ c rest, style.number n = c :: rest ∧ (c.isDigit = true ∨ c = '-')

/-- The text behind a value does not continue its last token. -/
def Stops (rest : Text) : Prop :=
  ∀ c, rest.head? = some c → isTokenChar c = false

/-- An escaped character never begins with a quotation mark, so it does not end the
string. -/
theorem escapeChar_head (raw : Char → Bool) (c : Char) : (escapeChar raw c).head? ≠ some '"' := by
  unfold escapeChar
  split
  · simp
  · simp
  · simp
  · simp
  · simp
  · simp
  · simp
  · next hquote _ _ _ _ _ _ =>
    split
    · simpa using hquote
    · unfold unicodeEscape
      split <;> simp [hexEscape]

section RoundTrip

variable {style : Style N} {d : Dialect N} {P : N → Prop}

/-- A string is read back up to its closing quotation mark. By induction on the string. -/
theorem readString_quote (h : style.Reads d P) (s rest : Text) {n : ℕ} (hn : s.length < n) :
    readString d.lone n (s.flatMap style.escape ++ '"' :: rest) = some (s, rest) := by
  induction s generalizing n with
  | nil =>
    obtain ⟨n, rfl⟩ : ∃ k, n = k + 1 := ⟨n - 1, by simp at hn; omega⟩
    rfl
  | cons c s ih =>
    obtain ⟨n, rfl⟩ : ∃ k, n = k + 1 := ⟨n - 1, by simp at hn; omega⟩
    have hchar := h.char c (s.flatMap style.escape ++ '"' :: rest)
    have hhead := h.closes c
    rw [List.flatMap_cons, List.append_assoc]
    cases hescape : style.escape c with
    | nil =>
      have hshort := h.char c []
      rw [hescape] at hshort
      simp [readChar] at hshort
    | cons e tail =>
      rw [hescape] at hchar hhead
      have hquote : e ≠ '"' := by simpa using hhead
      rw [List.cons_append] at hchar ⊢
      rw [readString.eq_3 _ _ _ (fun rest heq => hquote (List.cons.inj heq).1)]
      simp only [hchar, Option.bind_eq_bind, Option.bind_some,
        ih (show s.length < n by simp at hn; omega)]
      rfl

/-- An escaped string is at least as long as the string. -/
theorem escaped_length (h : style.Reads d P) (s : Text) :
    s.length ≤ (s.flatMap style.escape).length := by
  induction s with
  | nil => simp
  | cons c s ih =>
    have hc : 0 < (style.escape c).length := by
      have hchar := h.char c []
      rcases Nat.eq_zero_or_pos (style.escape c).length with hzero | hpos
      · rw [List.length_eq_zero_iff.mp hzero] at hchar
        simp [readChar] at hchar
      · exact hpos
    simp only [List.flatMap_cons, List.length_append, List.length_cons]
    omega

/-- Only white space is passed over. -/
theorem skip_cons {c : Char} {rest : Text}
    (h : (c = ' ' || c = '\t' || c = '\n' || c = '\r') = false) : skip (c :: rest) = c :: rest := by
  rw [skip, List.dropWhile_cons, h]
  rfl

/-- A token is read up to where it stops, and is a literal or a number. -/
theorem readToken_eq (d : Dialect N) {token rest : Text} (htoken : token.all isTokenChar = true)
    (hstops : Stops rest) : readToken d (token ++ rest) =
      if token = ['n', 'u', 'l', 'l'] then some (.null, rest)
      else if token = ['t', 'r', 'u', 'e'] then some (.bool true, rest)
      else if token = ['f', 'a', 'l', 's', 'e'] then some (.bool false, rest)
      else (d.number token).map fun n => (.num n, rest) := by
  rw [List.all_eq_true] at htoken
  have hrest : rest.takeWhile isTokenChar = [] ∧ rest.dropWhile isTokenChar = rest := by
    cases rest with
    | nil => exact ⟨rfl, rfl⟩
    | cons c rest =>
      have hc := hstops c rfl
      simp [hc]
  have htake : (token ++ rest).takeWhile isTokenChar = token := by
    rw [List.takeWhile_append_of_pos htoken, hrest.1, List.append_nil]
  have hdrop : (token ++ rest).dropWhile isTokenChar = rest := by
    rw [List.dropWhile_append_of_pos htoken, hrest.2]
  simp only [readToken, htake, hdrop]

/-- What follows an item is a comma or a bracket, so a token stops there. -/
theorem stops_printItems (items : List (Json N)) (rest : Text) :
    Stops (Json.printItems style items ++ rest) := by
  intro c hc
  cases items with
  | nil =>
    obtain rfl : ']' = c := by simpa [Json.printItems] using hc
    decide
  | cons v items =>
    obtain rfl : ',' = c := by simpa [Json.printItems] using hc
    decide

/-- What follows a field is a comma or a brace, so a token stops there. -/
theorem stops_printFields (fields : List (Text × Json N)) (rest : Text) :
    Stops (Json.printFields style fields ++ rest) := by
  intro c hc
  cases fields with
  | nil =>
    obtain rfl : '}' = c := by simpa [Json.printFields] using hc
    decide
  | cons v fields =>
    obtain rfl : ',' = c := by simpa [Json.printFields] using hc
    decide

/-- A value that begins otherwise is a token. -/
theorem readValue_token {c : Char} {rest : Text} (n : ℕ)
    (hspace : (c = ' ' || c = '\t' || c = '\n' || c = '\r') = false)
    (hquote : c ≠ '"') (harray : c ≠ '[') (hobject : c ≠ '{') :
    readValue d (n + 1) (c :: rest) = readToken d (c :: rest) := by
  rw [readValue, skip_cons hspace]
  split
  · next heq => exact absurd (List.cons.inj heq).1 hquote
  · next heq => exact absurd (List.cons.inj heq).1 harray
  · next heq => exact absurd (List.cons.inj heq).1 hobject
  · rfl

/-- An array with an element is read element by element. -/
theorem readValue_array {c : Char} {rest : Text} (n : ℕ)
    (hspace : (c = ' ' || c = '\t' || c = '\n' || c = '\r') = false) (hclose : c ≠ ']') :
    readValue d (n + 1) ('[' :: c :: rest) =
      (readItems d n (c :: rest)).map fun (items, rest) => (.arr items, rest) := by
  rw [readValue, skip_cons (by decide)]
  simp only
  rw [skip_cons hspace]
  split
  · next heq => exact absurd (List.cons.inj heq).1 hclose
  · rfl

/-- An object with a key is read field by field. -/
theorem readValue_object (n : ℕ) (rest : Text) :
    readValue d (n + 1) ('{' :: '"' :: rest) =
      (readFields d n ('"' :: rest)).map fun (fields, rest) => (.obj fields, rest) := by
  rw [readValue, skip_cons (by decide)]
  simp only
  rw [skip_cons (by decide)]
  rfl

/-- A number begins with none of the characters that begin anything else. -/
theorem numberStart_ne {c : Char} (h : c.isDigit = true ∨ c = '-') :
    ∀ e ∈ [' ', '\t', '\n', '\r', ']', '"', '[', '{', 'n', 't', 'f'], c ≠ e := by
  rintro e he rfl
  exact Json.forall_of_all (Q := fun c => ¬ (c.isDigit = true ∨ c = '-')) (by decide) c he h

/-- The text of a value begins with a character that begins a value. -/
theorem print_head (h : style.Reads d P) (v : Json N) (hv : ∀ n ∈ v.numbers, P n) :
    ∃ c tail, v.print style = c :: tail ∧
      (c = ' ' || c = '\t' || c = '\n' || c = '\r') = false ∧ c ≠ ']' := by
  have hstart : ∀ text : Text, (∃ c tail, text = c :: tail ∧ c ∈ ['n', 't', 'f', '"', '[', '{']) →
      ∃ c tail, text = c :: tail ∧
        (c = ' ' || c = '\t' || c = '\n' || c = '\r') = false ∧ c ≠ ']' := by
    rintro text ⟨c, tail, rfl, hc⟩
    have hmark : (c = ' ' || c = '\t' || c = '\n' || c = '\r') = false ∧ c ≠ ']' :=
      Json.forall_of_all
        (Q := fun c => (c = ' ' || c = '\t' || c = '\n' || c = '\r') = false ∧ c ≠ ']')
        (by decide) c hc
    exact ⟨c, tail, rfl, hmark⟩
  cases v with
  | null => exact hstart _ ⟨_, _, rfl, by decide⟩
  | bool b => cases b <;> exact hstart _ ⟨_, _, rfl, by decide⟩
  | num n =>
    obtain ⟨c, tail, heq, hc⟩ := h.starts n (hv n (by simp [Json.numbers]))
    have hne := numberStart_ne hc
    simp only [List.mem_cons, List.not_mem_nil, or_false, forall_eq_or_imp, forall_eq] at hne
    exact ⟨c, tail, heq, by simp [hne], hne.2.2.2.2.1⟩
  | str s => exact hstart _ ⟨_, _, rfl, by simp⟩
  | arr items => cases items <;> exact hstart _ ⟨_, _, rfl, by simp⟩
  | obj fields => cases fields <;> exact hstart _ ⟨_, _, rfl, by simp⟩

/-- A token is read back. -/
theorem readValue_scalar {token rest : Text} (v : Json N) {n : ℕ}
    (hhead : ∃ c tail, token = c :: tail ∧
      (c = ' ' || c = '\t' || c = '\n' || c = '\r') = false ∧ c ≠ '"' ∧ c ≠ '[' ∧ c ≠ '{')
    (htoken : token.all isTokenChar = true) (hstops : Stops rest) (hn : 0 < n)
    (hvalue : (if token = ['n', 'u', 'l', 'l'] then some (Json.null, rest)
      else if token = ['t', 'r', 'u', 'e'] then some (.bool true, rest)
      else if token = ['f', 'a', 'l', 's', 'e'] then some (.bool false, rest)
      else (d.number token).map fun n => (.num n, rest)) = some (v, rest)) :
    readValue d n (token ++ rest) = some (v, rest) := by
  obtain ⟨n, rfl⟩ : ∃ k, n = k + 1 := ⟨n - 1, by omega⟩
  obtain ⟨c, tail, rfl, hspace, hquote, harray, hobject⟩ := hhead
  rw [List.cons_append, readValue_token n hspace hquote harray hobject, ← List.cons_append,
    readToken_eq d htoken hstops, hvalue]

/-- What is known of a value that is printed inside another one. -/
def ReadsBack (style : Style N) (d : Dialect N) (v : Json N) : Prop :=
  ∀ n rest, (v.print style).length < n → Stops rest →
    readValue d n (v.print style ++ rest) = some (v, rest)

/-- The items of an array are read back if each of them is. By induction on the items. -/
theorem readItems_print {v : Json N} {items : List (Json N)} (hv : ReadsBack style d v)
    (hitems : ∀ w ∈ items, ReadsBack style d w) (n : ℕ) (rest : Text)
    (hn : (v.print style ++ Json.printItems style items).length < n) :
    readItems d n (v.print style ++ (Json.printItems style items ++ rest)) =
      some (v :: items, rest) := by
  induction items generalizing v n with
  | nil =>
    obtain ⟨n, rfl⟩ : ∃ k, n = k + 1 := ⟨n - 1, by omega⟩
    simp only [List.length_append, Json.printItems, List.length_singleton] at hn
    rw [readItems, hv n _ (by omega) (stops_printItems [] rest)]
    simp only [Option.bind_eq_bind, Option.bind_some, Json.printItems, List.singleton_append]
    rw [skip_cons (by decide)]
    rfl
  | cons w items ih =>
    obtain ⟨n, rfl⟩ : ∃ k, n = k + 1 := ⟨n - 1, by omega⟩
    have htail := ih (hitems w (by simp)) (fun u hu => hitems u (List.mem_cons_of_mem w hu)) n
    simp only [List.length_append, Json.printItems, List.length_cons] at hn htail
    rw [readItems, hv n _ (by omega) (stops_printItems (w :: items) rest)]
    simp only [Option.bind_eq_bind, Option.bind_some, Json.printItems, List.cons_append]
    rw [skip_cons (by decide)]
    simp only [List.append_assoc, htail (by omega), Option.map_some]

/-- The fields of an object are read back if each value is. By induction on the fields. -/
theorem readFields_print (h : style.Reads d P) (key : Text) {v : Json N}
    {fields : List (Text × Json N)} (hv : ReadsBack style d v)
    (hfields : ∀ entry ∈ fields, ReadsBack style d entry.2) (n : ℕ) (rest : Text)
    (hn : (v.print style ++ Json.printFields style fields).length < n) :
    readFields d n (quote style.escape key ++ ':' :: (v.print style ++
      (Json.printFields style fields ++ rest))) = some ((key, v) :: fields, rest) := by
  have hkey : ∀ (s tail : Text), readString d.lone
      ((s.flatMap style.escape ++ '"' :: tail).length + 1)
      (s.flatMap style.escape ++ '"' :: tail) = some (s, tail) := by
    intro s tail
    refine readString_quote h s tail ?_
    have hs := escaped_length h s
    simp only [List.length_append, List.length_cons]
    omega
  induction fields generalizing key v n with
  | nil =>
    obtain ⟨n, rfl⟩ : ∃ k, n = k + 1 := ⟨n - 1, by omega⟩
    simp only [List.length_append, Json.printFields, List.length_singleton] at hn
    simp only [quote, List.cons_append, List.append_assoc, List.nil_append, readFields]
    rw [skip_cons (by decide)]
    simp only [hkey, Option.bind_eq_bind, Option.bind_some]
    rw [skip_cons (by decide)]
    simp only
    rw [hv n _ (by omega) (stops_printFields [] rest)]
    simp only [Option.bind_some, Json.printFields, List.singleton_append]
    rw [skip_cons (by decide)]
    rfl
  | cons entry fields ih =>
    obtain ⟨n, rfl⟩ : ∃ k, n = k + 1 := ⟨n - 1, by omega⟩
    obtain ⟨k, w⟩ := entry
    have htail := ih k (hfields (k, w) (by simp))
      (fun u hu => hfields u (List.mem_cons_of_mem _ hu)) n
    simp only [List.length_append, Json.printFields, List.length_cons] at hn htail
    simp only [quote, List.cons_append, List.append_assoc, List.nil_append, readFields]
    rw [skip_cons (by decide)]
    simp only [hkey, Option.bind_eq_bind, Option.bind_some]
    rw [skip_cons (by decide)]
    simp only
    rw [hv n _ (by omega) (stops_printFields ((k, w) :: fields) rest)]
    simp only [Option.bind_some, Json.printFields, List.cons_append, List.append_assoc]
    rw [skip_cons (by decide)]
    simp only [htail (by omega), Option.map_some]

/-- Every value is read back from what is printed. -/
theorem readsBack (h : style.Reads d P) (v : Json N) (hv : ∀ n ∈ v.numbers, P n) :
    ReadsBack style d v := by
  induction v with
  | null =>
    intro n rest hn hstops
    exact readValue_scalar .null ⟨_, _, rfl, by decide⟩ rfl hstops (by omega) rfl
  | bool b =>
    intro n rest hn hstops
    cases b with
    | false => exact readValue_scalar _ ⟨_, _, rfl, by decide⟩ rfl hstops (by omega) rfl
    | true => exact readValue_scalar _ ⟨_, _, rfl, by decide⟩ rfl hstops (by omega) rfl
  | num k =>
    intro n rest hn hstops
    have hk := hv k (by simp [Json.numbers])
    obtain ⟨c, tail, heq, hc⟩ := h.starts k hk
    have hne := numberStart_ne hc
    simp only [List.mem_cons, List.not_mem_nil, or_false, forall_eq_or_imp, forall_eq] at hne
    obtain ⟨hblank, htab, hfeed, hreturn, _, hquote, harray, hobject, hnull, htrue, hfalse⟩ := hne
    have hspace : (c = ' ' || c = '\t' || c = '\n' || c = '\r') = false := by
      simp [hblank, htab, hfeed, hreturn]
    refine readValue_scalar _ ⟨c, tail, heq, hspace, hquote, harray, hobject⟩ (h.token k hk) hstops (by omega) ?_
    rw [if_neg (by simp [Json.print, heq, hnull]), if_neg (by simp [Json.print, heq, htrue]),
      if_neg (by simp [Json.print, heq, hfalse])]
    exact congrArg _ (h.number k hk)
  | str s =>
    intro n rest hn hstops
    obtain ⟨n, rfl⟩ : ∃ k, n = k + 1 := ⟨n - 1, by omega⟩
    have hlength := escaped_length h s
    rw [Json.print, quote, List.cons_append, readValue, skip_cons (by decide)]
    simp only [List.append_assoc, List.singleton_append]
    rw [readString_quote h s rest (by simp only [List.length_append, List.length_cons]; omega)]
    rfl
  | arr items ih =>
    intro n rest hn hstops
    obtain ⟨n, rfl⟩ : ∃ k, n = k + 1 := ⟨n - 1, by omega⟩
    have hitems : ∀ v ∈ items, ∀ n ∈ v.numbers, P n := fun v hmem n hmem' =>
      hv n (Json.mem_numbersItems.mpr ⟨v, hmem, hmem'⟩)
    cases items with
    | nil => rfl
    | cons v items =>
      have hread := readItems_print (ih v (by simp) (hitems v (by simp)))
        (fun w hw => ih w (List.mem_cons_of_mem v hw) (hitems w (List.mem_cons_of_mem v hw))) n rest
      obtain ⟨c, tail, heq, hspace, hclose⟩ := print_head h v (hitems v (by simp))
      simp only [Json.print, List.length_cons, heq, List.cons_append, List.append_assoc] at hn hread ⊢
      rw [readValue_array n hspace hclose, hread (by simpa using hn)]
      rfl
  | obj fields ih =>
    intro n rest hn hstops
    obtain ⟨n, rfl⟩ : ∃ k, n = k + 1 := ⟨n - 1, by omega⟩
    have hfields : ∀ entry ∈ fields, ∀ n ∈ entry.2.numbers, P n := fun entry hmem n hmem' =>
      hv n (Json.mem_numbersFields.mpr ⟨entry, hmem, hmem'⟩)
    cases fields with
    | nil => rfl
    | cons entry fields =>
      obtain ⟨key, v⟩ := entry
      have hread := readFields_print h key (ih (key, v) (by simp) (hfields (key, v) (by simp)))
        (fun w hw => ih w (List.mem_cons_of_mem _ hw) (hfields w (List.mem_cons_of_mem _ hw))) n rest
      simp only [Json.print, List.length_cons, List.length_append] at hn
      simp only [Json.print, List.cons_append, List.append_assoc]
      rw [quote, List.cons_append] at hread ⊢
      rw [readValue_object, hread (by simp only [List.length_append]; omega)]
      rfl

/-- The text of a value denotes it. -/
theorem parse_print (h : style.Reads d P) (v : Json N) (hv : ∀ n ∈ v.numbers, P n) :
    parse d (v.print style) = some v := by
  have hread := readsBack h v hv ((v.print style).length + 1) [] (by omega) (by simp [Stops])
  rw [List.append_nil] at hread
  rw [parse, hread]
  rfl

/-- White space behind the text of a value changes nothing. -/
theorem parse_print_space (h : style.Reads d P) (v : Json N) (hv : ∀ n ∈ v.numbers, P n)
    {space : Text} (hspace : skip space = []) (hstops : Stops space) :
    parse d (v.print style ++ space) = some v := by
  have hread := readsBack h v hv ((v.print style ++ space).length + 1) space
    (by simp only [List.length_append]; omega) hstops
  rw [parse, hread]
  simp [hspace]

end RoundTrip

end Tracewake.JsonText
