import Tracewake.JsonText.Value

/-!
# Printing values

The compact text of a value. A style says how a character stands in a string and how a
number is spelled. All styles write the two-character escapes that JSON has, and differ
in the other characters that they leave as they are.
-/

namespace Tracewake.JsonText

/-- The four digits of a code unit after `\u`. -/
def hexDigits (n : ℕ) : Text :=
  [Nat.digitChar (n / 4096 % 16), Nat.digitChar (n / 256 % 16), Nat.digitChar (n / 16 % 16),
    Nat.digitChar (n % 16)]

/-- `\uXXXX`. -/
def hexEscape (n : ℕ) : Text :=
  '\\' :: 'u' :: hexDigits n

/-- The escape of a character by its UTF-16 code units. -/
def unicodeEscape (c : Char) : Text :=
  if c.toNat < 0x10000 then hexEscape c.toNat
  else
    hexEscape (0xd800 + (c.toNat - 0x10000) / 0x400) ++
      hexEscape (0xdc00 + (c.toNat - 0x10000) % 0x400)

/-- A character of a string, where the characters of `raw` need no escape of their own. -/
def escapeChar (raw : Char → Bool) : Char → Text
  | '"' => ['\\', '"']
  | '\\' => ['\\', '\\']
  | '\n' => ['\\', 'n']
  | '\r' => ['\\', 'r']
  | '\t' => ['\\', 't']
  | '\x08' => ['\\', 'b']
  | '\x0c' => ['\\', 'f']
  | c => if raw c then [c] else unicodeEscape c

/-- How characters and numbers are written. -/
structure Style (N : Type) where
  escape : Char → Text
  number : N → Text

/-- A string in quotation marks. -/
def quote (escape : Char → Text) (s : Text) : Text :=
  '"' :: (s.flatMap escape ++ ['"'])

namespace Json

variable {N M : Type}

mutual

/-- The text of a value without white space. -/
def print (style : Style N) : Json N → Text
  | .null => ['n', 'u', 'l', 'l']
  | .bool true => ['t', 'r', 'u', 'e']
  | .bool false => ['f', 'a', 'l', 's', 'e']
  | .num n => style.number n
  | .str s => quote style.escape s
  | .arr [] => ['[', ']']
  | .arr (v :: rest) => '[' :: (v.print style ++ printItems style rest)
  | .obj [] => ['{', '}']
  | .obj ((k, v) :: rest) =>
    '{' :: (quote style.escape k ++ ':' :: (v.print style ++ printFields style rest))

/-- The items of an array after the first. -/
def printItems (style : Style N) : List (Json N) → Text
  | [] => [']']
  | v :: rest => ',' :: (v.print style ++ printItems style rest)

/-- The fields of an object after the first. -/
def printFields (style : Style N) : List (Text × Json N) → Text
  | [] => ['}']
  | (k, v) :: rest =>
    ',' :: (quote style.escape k ++ ':' :: (v.print style ++ printFields style rest))

end

/-- Replacing numbers before printing is printing with another spelling. -/
theorem print_map (style : Style M) (f : N → M) (v : Json N) :
    (v.map f).print style = v.print ⟨style.escape, fun n => style.number (f n)⟩ := by
  induction v with
  | null | str | num => rfl
  | bool b => cases b <;> rfl
  | arr items ih =>
    have hitems : ∀ rest : List (Json N),
        (∀ v ∈ rest, (v.map f).print style = v.print ⟨style.escape, fun n => style.number (f n)⟩) →
        printItems style (mapItems f rest) =
          printItems ⟨style.escape, fun n => style.number (f n)⟩ rest := by
      intro rest hrest
      induction rest with
      | nil => rfl
      | cons v rest ihrest =>
        simp only [mapItems, printItems, hrest v (by simp),
          ihrest fun w hw => hrest w (List.mem_cons_of_mem v hw)]
    cases items with
    | nil => rfl
    | cons v rest =>
      simp only [map, mapItems, print, ih v (by simp),
        hitems rest fun w hw => ih w (List.mem_cons_of_mem v hw)]
  | obj fields ih =>
    have hfields : ∀ rest : List (Text × Json N),
        (∀ entry ∈ rest, (entry.2.map f).print style =
          entry.2.print ⟨style.escape, fun n => style.number (f n)⟩) →
        printFields style (mapFields f rest) =
          printFields ⟨style.escape, fun n => style.number (f n)⟩ rest := by
      intro rest hrest
      induction rest with
      | nil => rfl
      | cons entry rest ihrest =>
        simp only [mapFields, printFields, hrest entry (by simp),
          ihrest fun w hw => hrest w (List.mem_cons_of_mem entry hw)]
    cases fields with
    | nil => rfl
    | cons entry rest =>
      simp only [map, mapFields, print, ih entry (by simp),
        hfields rest fun w hw => ih w (List.mem_cons_of_mem entry hw)]

/-- Styles that agree on the strings and numbers of a value print it alike. -/
theorem print_congr {a b : Style N} (v : Json N)
    (hescape : ∀ s ∈ v.strings, ∀ c ∈ s, a.escape c = b.escape c)
    (hnumber : ∀ n ∈ v.numbers, a.number n = b.number n) : v.print a = v.print b := by
  have hquote : ∀ s : Text, (∀ c ∈ s, a.escape c = b.escape c) →
      quote a.escape s = quote b.escape s := by
    intro s hs
    rw [quote, quote, List.flatMap_congr hs]
  induction v with
  | null => rfl
  | bool b => cases b <;> rfl
  | num n => exact hnumber n (by simp [numbers])
  | str s => exact hquote s (hescape s (by simp [strings]))
  | arr items ih =>
    have hitems : ∀ v ∈ items, v.print a = v.print b := fun v hv =>
      ih v hv (fun s hs => hescape s (mem_stringsItems.mpr ⟨v, hv, hs⟩))
        (fun n hn => hnumber n (mem_numbersItems.mpr ⟨v, hv, hn⟩))
    have htail : ∀ rest : List (Json N), (∀ v ∈ rest, v.print a = v.print b) →
        printItems a rest = printItems b rest := by
      intro rest hrest
      induction rest with
      | nil => rfl
      | cons v rest ihrest =>
        simp only [printItems, hrest v (by simp),
          ihrest fun w hw => hrest w (List.mem_cons_of_mem v hw)]
    cases items with
    | nil => rfl
    | cons v rest =>
      simp only [print, hitems v (by simp),
        htail rest fun w hw => hitems w (List.mem_cons_of_mem v hw)]
  | obj fields ih =>
    have hkey : ∀ entry ∈ fields, quote a.escape entry.1 = quote b.escape entry.1 :=
      fun entry hentry =>
        hquote entry.1 (hescape entry.1 (mem_stringsFields.mpr ⟨entry, hentry, .inl rfl⟩))
    have hfields : ∀ entry ∈ fields, entry.2.print a = entry.2.print b := fun entry hentry =>
      ih entry hentry (fun s hs => hescape s (mem_stringsFields.mpr ⟨entry, hentry, .inr hs⟩))
        (fun n hn => hnumber n (mem_numbersFields.mpr ⟨entry, hentry, hn⟩))
    have htail : ∀ rest : List (Text × Json N),
        (∀ entry ∈ rest, quote a.escape entry.1 = quote b.escape entry.1 ∧
          entry.2.print a = entry.2.print b) → printFields a rest = printFields b rest := by
      intro rest hrest
      induction rest with
      | nil => rfl
      | cons entry rest ihrest =>
        obtain ⟨hquoted, hprinted⟩ := hrest entry (by simp)
        simp only [printFields, hquoted, hprinted,
          ihrest fun w hw => hrest w (List.mem_cons_of_mem entry hw)]
    cases fields with
    | nil => rfl
    | cons entry rest =>
      simp only [print, hkey entry (by simp), hfields entry (by simp),
        htail rest fun w hw => ⟨hkey w (List.mem_cons_of_mem entry hw),
          hfields w (List.mem_cons_of_mem entry hw)⟩]

/-- The characters that every style writes: punctuation and literals. -/
def punctuation : Text :=
  ['n', 'u', 'l', 't', 'r', 'e', 'f', 'a', 's', '[', ']', ',', '{', '}', ':', '"']

/-- A property of the characters of a text, from its check. -/
theorem forall_of_all {Q : Char → Prop} [DecidablePred Q] {text : Text}
    (h : text.all (fun c => decide (Q c)) = true) : ∀ c ∈ text, Q c := by
  simpa using h

/-- A property of all characters of a text is one of the punctuation, of the numbers and
of the escaped strings. -/
theorem print_all {Q : Char → Prop} {style : Style N} (v : Json N)
    (hpunctuation : ∀ c ∈ punctuation, Q c)
    (hescape : ∀ s ∈ v.strings, ∀ d ∈ s, ∀ c ∈ style.escape d, Q c)
    (hnumber : ∀ n ∈ v.numbers, ∀ c ∈ style.number n, Q c) : ∀ c ∈ v.print style, Q c := by
  have hmark : ∀ c, c ∈ punctuation → Q c := hpunctuation
  have hquote : ∀ s : Text, (∀ d ∈ s, ∀ c ∈ style.escape d, Q c) →
      ∀ c ∈ quote style.escape s, Q c := by
    intro s hs c hc
    simp only [quote, List.mem_cons, List.mem_append, List.mem_flatMap, List.not_mem_nil,
      or_false] at hc
    rcases hc with rfl | ⟨d, hd, hc⟩ | rfl
    · exact hmark _ (by decide)
    · exact hs d hd c hc
    · exact hmark _ (by decide)
  induction v with
  | null =>
    intro c hc
    simp only [print] at hc
    exact hmark c (forall_of_all (by decide) c hc)
  | bool b =>
    intro c hc
    cases b with
    | false =>
      simp only [print] at hc
      exact hmark c (forall_of_all (by decide) c hc)
    | true =>
      simp only [print] at hc
      exact hmark c (forall_of_all (by decide) c hc)
  | num n => exact hnumber n (by simp [numbers])
  | str s => exact hquote s (hescape s (by simp [strings]))
  | arr items ih =>
    have hitems : ∀ v ∈ items, ∀ c ∈ v.print style, Q c := fun v hv =>
      ih v hv (fun s hs => hescape s (mem_stringsItems.mpr ⟨v, hv, hs⟩))
        (fun n hn => hnumber n (mem_numbersItems.mpr ⟨v, hv, hn⟩))
    have htail : ∀ rest : List (Json N), (∀ v ∈ rest, ∀ c ∈ v.print style, Q c) →
        ∀ c ∈ printItems style rest, Q c := by
      intro rest hrest
      induction rest with
      | nil => simpa [printItems] using hmark ']' (by decide)
      | cons v rest ihrest =>
        have hlast := ihrest fun w hw => hrest w (List.mem_cons_of_mem v hw)
        intro c hc
        simp only [printItems, List.mem_cons, List.mem_append] at hc
        rcases hc with rfl | hc | hc
        · exact hmark _ (by decide)
        · exact hrest v (by simp) c hc
        · exact hlast c hc
    cases items with
    | nil =>
      intro c hc
      simp only [print] at hc
      exact hmark c (forall_of_all (by decide) c hc)
    | cons v rest =>
      intro c hc
      simp only [print, List.mem_cons, List.mem_append] at hc
      rcases hc with rfl | hc | hc
      · exact hmark _ (by decide)
      · exact hitems v (by simp) c hc
      · exact htail rest (fun w hw => hitems w (List.mem_cons_of_mem v hw)) c hc
  | obj fields ih =>
    have hkey : ∀ entry ∈ fields, ∀ c ∈ quote style.escape entry.1, Q c := fun entry hentry =>
      hquote entry.1 (hescape entry.1 (mem_stringsFields.mpr ⟨entry, hentry, .inl rfl⟩))
    have hfields : ∀ entry ∈ fields, ∀ c ∈ entry.2.print style, Q c := fun entry hentry =>
      ih entry hentry (fun s hs => hescape s (mem_stringsFields.mpr ⟨entry, hentry, .inr hs⟩))
        (fun n hn => hnumber n (mem_numbersFields.mpr ⟨entry, hentry, hn⟩))
    have htail : ∀ rest : List (Text × Json N),
        (∀ entry ∈ rest, (∀ c ∈ quote style.escape entry.1, Q c) ∧
          ∀ c ∈ entry.2.print style, Q c) → ∀ c ∈ printFields style rest, Q c := by
      intro rest hrest
      induction rest with
      | nil => simpa [printFields] using hmark '}' (by decide)
      | cons entry rest ihrest =>
        have hlast := ihrest fun w hw => hrest w (List.mem_cons_of_mem entry hw)
        obtain ⟨hquoted, hprinted⟩ := hrest entry (by simp)
        intro c hc
        simp only [printFields, List.mem_cons, List.mem_append] at hc
        rcases hc with rfl | hc | rfl | hc | hc
        · exact hmark _ (by decide)
        · exact hquoted c hc
        · exact hmark _ (by decide)
        · exact hprinted c hc
        · exact hlast c hc
    cases fields with
    | nil =>
      intro c hc
      simp only [print] at hc
      exact hmark c (forall_of_all (by decide) c hc)
    | cons entry rest =>
      intro c hc
      simp only [print, List.mem_cons, List.mem_append] at hc
      rcases hc with rfl | hc | rfl | hc | hc
      · exact hmark _ (by decide)
      · exact hkey entry (by simp) c hc
      · exact hmark _ (by decide)
      · exact hfields entry (by simp) c hc
      · exact htail rest (fun w hw => ⟨hkey w (List.mem_cons_of_mem entry hw),
          hfields w (List.mem_cons_of_mem entry hw)⟩) c hc

/-- What a string of a value escapes to stands in its text. -/
theorem mem_print {style : Style N} {s : Text} {d c : Char} (v : Json N) (hs : s ∈ v.strings)
    (hd : d ∈ s) (hc : c ∈ style.escape d) : c ∈ v.print style := by
  have hquote : c ∈ quote style.escape s :=
    List.mem_cons_of_mem _ (List.mem_append_left _ (List.mem_flatMap.mpr ⟨d, hd, hc⟩))
  induction v with
  | null | bool | num => simp [strings] at hs
  | str s =>
    obtain rfl := List.mem_singleton.mp hs
    exact hquote
  | arr items ih =>
    obtain ⟨v, hv, hs⟩ := mem_stringsItems.mp hs
    have hprint := ih v hv hs
    have htail : ∀ rest : List (Json N), v ∈ rest → c ∈ printItems style rest := by
      intro rest hrest
      induction rest with
      | nil => simp at hrest
      | cons w rest ihrest =>
        rcases List.mem_cons.mp hrest with rfl | hrest
        · simp [printItems, hprint]
        · simp [printItems, ihrest hrest]
    cases items with
    | nil => simp at hv
    | cons w rest =>
      rcases List.mem_cons.mp hv with rfl | hv
      · simp [print, hprint]
      · simp [print, htail rest hv]
  | obj fields ih =>
    obtain ⟨entry, hentry, hs⟩ := mem_stringsFields.mp hs
    have hprint : c ∈ quote style.escape entry.1 ++ entry.2.print style := by
      rcases hs with rfl | hs
      · exact List.mem_append_left _ hquote
      · exact List.mem_append_right _ (ih entry hentry hs)
    have htail : ∀ rest : List (Text × Json N), entry ∈ rest → c ∈ printFields style rest := by
      intro rest hrest
      induction rest with
      | nil => simp at hrest
      | cons w rest ihrest =>
        rcases List.mem_cons.mp hrest with rfl | hrest
        · simp only [printFields, List.mem_cons, List.mem_append] at hprint ⊢
          tauto
        · simp [printFields, ihrest hrest]
    cases fields with
    | nil => simp at hentry
    | cons w rest =>
      rcases List.mem_cons.mp hentry with rfl | hentry
      · simp only [print, List.mem_cons, List.mem_append] at hprint ⊢
        tauto
      · simp [print, htail rest hentry]

end Json

end Tracewake.JsonText
