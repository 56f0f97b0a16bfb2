import Tracewake.Recording.Strict
import Tracewake.Texts.Lines

/-!
# Lines of events

`_line` puts an event with its `meta` and its number on one line, and `json.loads` takes
them apart again. The writer escapes control characters, so of the characters that end a
line for `splitlines` three can stand in it as they are.
-/

namespace Tracewake.Cassettes

open JsonText Recording
open Results (lessCodePoints keyOrder)

variable {F D : Type} [Python F] [Sha256 D] [Pydantic F D]

/-- `_line`. -/
def line (stored : StoredEvent F D) : Text :=
  match loads (F := F) stored.event.canonicalText with
  | some (.obj fields) =>
    let value := stored.event.eventMeta.dump.canon lessCodePoints
    canonicalJson (.obj (assign "seq" (integer stored.seq) (assign "meta" value fields)))
  | _ => []

/-- The number and the event of a line. -/
def readLine (D : Type) [Sha256 D] [Pydantic F D] (text : Text) : Option (ℤ × Event F D) := do
  match ← loads (F := F) text with
  | .obj fields =>
    let seq ← (Json.lookup "seq".toList fields).bind integer?
    let event ← Pydantic.validate (.obj (Json.eraseKey "seq".toList fields))
    return (seq, event)
  | _ => none

/-- The fields of a line. -/
def lineFields (stored : StoredEvent F D) : List (String × Value F) :=
  stored.event.fields ++ [("meta", stored.event.eventMeta.dump)] ++ [("seq", integer stored.seq)]

omit [Pydantic F D] in
/-- A line is the canonical text of the event's fields. -/
theorem line_eq (stored : StoredEvent F D) :
    line stored = canonicalJson (.obj (dictionary (lineFields stored))) := by
  have hload : loads (F := F) stored.event.canonicalText =
      some (.obj (dictionary stored.event.fields)) := by
    rw [Event.canonicalText, loads_canonicalJson, Event.dump, record_canon]
  have hseq : (integer stored.seq : Value F).canon lessCodePoints = integer stored.seq := rfl
  simp only [line, hload]
  rw [assign_dictionary, ← hseq, assign_dictionary]
  rfl

omit [Pydantic F D] in
/-- No field of an event is called `seq`. -/
theorem seq_notMem_fields (event : Event F D) : "seq" ∉ event.fields.map Prod.fst := by
  cases event <;> simp [Event.fields, Event.ownFields]

omit [Pydantic F D] in
/-- Without the number the fields of a line are those of the event. -/
theorem eraseKey_lineFields (stored : StoredEvent F D) :
    Json.eraseKey "seq".toList (dictionary (lineFields stored)) =
      dictionary (stored.event.fields ++ [("meta", stored.event.eventMeta.dump)]) := by
  have hothers : ∀ field ∈ (stored.event.fields ++ [("meta", stored.event.eventMeta.dump)]).map
      fun field => (field.1.toList, field.2), field.1 ≠ "seq".toList := by
    intro field hfield
    obtain ⟨⟨name, value⟩, hmem, rfl⟩ := List.mem_map.mp hfield
    rw [Ne, String.toList_inj]
    rcases List.mem_append.mp hmem with hmem | hmem
    · rintro rfl
      exact seq_notMem_fields stored.event (List.mem_map_of_mem hmem)
    · cases List.mem_singleton.mp hmem
      simp
  have hseq : Json.eraseKey "seq".toList [("seq".toList, (integer stored.seq : Value F))] = [] :=
    rfl
  rw [dictionary, Json.eraseKey_canonFields keyOrder, lineFields, List.map_append,
    Json.eraseKey_append, Json.eraseKey_of_notMem hothers, List.map_singleton, hseq,
    List.append_nil, dictionary]

omit [Pydantic F D] in
/-- The number of a line is that of the event. -/
theorem lookup_lineFields (stored : StoredEvent F D) :
    Json.lookup "seq".toList (dictionary (lineFields stored)) = some (integer stored.seq) := by
  have hlast : (record (lineFields stored)).field "seq".toList = some (integer stored.seq) := by
    rw [field_record, lineFields, List.reverse_append]
    rfl
  rw [dictionary, Json.lookup_canonFields keyOrder]
  change ((record (lineFields stored)).field "seq".toList).map _ = _
  rw [hlast]
  rfl

omit [Pydantic F D] in
/-- A line is the print of an object. -/
theorem line_eq_print (stored : StoredEvent F D) :
    line stored = (Json.obj (dictionary (lineFields stored))).print dumps := by
  rw [line_eq, canonicalJson, dictionary, canonFields_canonical]

omit [Sha256 D] [Pydantic F D] in
/-- Space behind canonical JSON does not matter. -/
theorem loads_canonicalJson_space (value : Value F) {space : Text} (hspace : skip space = [])
    (hstops : Stops space) :
    loads (canonicalJson value ++ space) = some (value.canon lessCodePoints) := by
  rw [canonicalJson, loads, parse_print_space dumps_reads _ (fun _ _ => trivial) hspace hstops,
    Option.map_some, Json.canon_canon keyOrder]

/-- A line is read back, with or without the line feed behind it. -/
theorem readLine_line (stored : StoredEvent F D) {space : Text} (hspace : skip space = [])
    (hstops : Stops space) :
    readLine D (line stored ++ space) = some (stored.seq, stored.event) := by
  have hload : loads (line stored ++ space) = some (.obj (dictionary (lineFields stored))) := by
    rw [line_eq, loads_canonicalJson_space _ hspace hstops, dictionary, canonFields_canonical]
  have hvalid : Pydantic.validate (D := D) (.obj (dictionary
      (stored.event.fields ++ [("meta", stored.event.eventMeta.dump)]))) = some stored.event := by
    rw [← record_canon]
    exact Pydantic.validate_dumpAll stored.event
  simp only [readLine, hload, Option.bind_eq_bind, Option.bind_some, lookup_lineFields,
    eraseKey_lineFields, hvalid]
  rfl

/-- An event is read back from its line. -/
theorem readLine_line_self (stored : StoredEvent F D) :
    readLine D (line stored) = some (stored.seq, stored.event) := by
  have hread := readLine_line stored (show skip [] = [] from rfl) (by simp [Stops])
  rwa [List.append_nil] at hread

/-! ## Characters of a line -/

/-- The characters that end a line for `splitlines` and are no control characters for
`json.dumps`. -/
def isSeparator (c : Char) : Bool := ['\u0085', '\u2028', '\u2029'].contains c

/-- No string of the event has a separator. -/
def Unseparated (event : Event F D) : Prop :=
  ∀ s ∈ (event.dumpAll.canon lessCodePoints).strings, ∀ c ∈ s, isSeparator c = false

omit [Pydantic F D] in
/-- The texts of a line are those of the event and the key of its number. -/
theorem mem_strings_line (stored : StoredEvent F D) {s : Text} :
    s ∈ (Json.obj (dictionary (lineFields stored))).strings ↔
      s = "seq".toList ∨ s ∈ (stored.event.dumpAll.canon lessCodePoints).strings := by
  have hseq : (integer stored.seq : Value F).canon lessCodePoints = integer stored.seq := rfl
  have hsplit : dictionary (lineFields stored) = Json.setField lessCodePoints "seq".toList
      (integer stored.seq)
      (dictionary (stored.event.fields ++ [("meta", stored.event.eventMeta.dump)])) := by
    rw [lineFields, ← assign_dictionary, hseq, assign]
  have hothers : ∀ field ∈ dictionary
      (stored.event.fields ++ [("meta", stored.event.eventMeta.dump)]),
        field.1 ≠ "seq".toList := by
    intro field hfield
    rw [← eraseKey_lineFields] at hfield
    simpa [Json.eraseKey] using (List.mem_filter.mp hfield).2
  rw [Event.dumpAll, record_canon, Json.strings, Json.strings, Json.mem_stringsFields,
    Json.mem_stringsFields, hsplit]
  constructor
  · rintro ⟨field, hfield, hs⟩
    rcases Json.mem_setField.mp hfield with rfl | ⟨hfield, -⟩
    · rcases hs with hs | hs
      · exact .inl hs
      · cases hs
    · exact .inr ⟨field, hfield, hs⟩
  · rintro (rfl | ⟨field, hfield, hs⟩)
    · exact ⟨_, Json.mem_setField.mpr (.inl rfl), .inl rfl⟩
    · exact ⟨field, Json.mem_setField.mpr (.inr ⟨hfield, hothers field hfield⟩), hs⟩

/-- Visible ASCII. -/
def isVisible (c : Char) : Bool := ' ' ≤ c && c ≤ '~'

/-- An escape consists of visible characters. -/
theorem hexEscape_visible (n : ℕ) : ∀ d ∈ hexEscape n, isVisible d = true := by
  have hdigit : ∀ k < 16, isVisible (Nat.digitChar k) = true := by decide
  have hmod : ∀ k : ℕ, isVisible (Nat.digitChar (k % 16)) = true := fun k =>
    hdigit (k % 16) (by omega)
  intro d hd
  simp only [hexEscape, hexDigits, List.mem_cons, List.not_mem_nil, or_false] at hd
  rcases hd with rfl | rfl | rfl | rfl | rfl | rfl
  · decide
  · decide
  all_goals exact hmod _

/-- The writer leaves a character as it is or puts visible ASCII for it. -/
theorem mem_escape {c d : Char} (h : d ∈ (dumps (F := F)).escape c) :
    d = c ∧ ¬ c < ' ' ∨ isVisible d = true := by
  change d ∈ escapeChar (fun c => ¬ c < ' ') c at h
  have hshort : ∀ text : Text, text.all isVisible = true → d ∈ text → isVisible d = true :=
    fun text hall hd => List.all_eq_true.mp hall d hd
  unfold escapeChar at h
  split at h
  · exact .inr (hshort _ (by decide) h)
  · exact .inr (hshort _ (by decide) h)
  · exact .inr (hshort _ (by decide) h)
  · exact .inr (hshort _ (by decide) h)
  · exact .inr (hshort _ (by decide) h)
  · exact .inr (hshort _ (by decide) h)
  · exact .inr (hshort _ (by decide) h)
  · split at h
    · next hraw =>
      exact .inl ⟨List.mem_singleton.mp h, by simpa using hraw⟩
    · right
      unfold unicodeEscape at h
      split at h
      · exact hexEscape_visible _ d h
      · rcases List.mem_append.mp h with h | h
        · exact hexEscape_visible _ d h
        · exact hexEscape_visible _ d h

/-- No visible character ends a line. -/
theorem not_isLineBreak_of_visible {c : Char} (h : isVisible c = true) :
    Texts.isLineBreak c = false := by
  rw [← Bool.not_eq_true]
  intro hbreak
  simp only [Texts.isLineBreak, List.contains_eq_mem, decide_eq_true_eq, List.mem_cons,
    List.not_mem_nil, or_false] at hbreak
  rcases hbreak with rfl | rfl | rfl | rfl | rfl | rfl | rfl | rfl | rfl | rfl <;> cases h

/-- What ends a line is a control character or a separator. -/
theorem isSeparator_of_isLineBreak {c : Char} (hc : ¬ c < ' ')
    (h : Texts.isLineBreak c = true) : isSeparator c = true := by
  simp only [Texts.isLineBreak, List.contains_eq_mem, decide_eq_true_eq, List.mem_cons,
    List.not_mem_nil, or_false] at h
  rcases h with rfl | rfl | rfl | rfl | rfl | rfl | rfl | rfl | rfl | rfl <;>
    first | rfl | exact absurd (by decide) hc

/-- What separates lines in JSON text is a line break for Python. -/
theorem isLineBreak_of_isSeparator {c : Char} (h : isSeparator c = true) :
    Texts.isLineBreak c = true := by
  simp only [isSeparator, List.contains_eq_mem, decide_eq_true_eq, List.mem_cons,
    List.not_mem_nil, or_false] at h
  rcases h with rfl | rfl | rfl <;> rfl

/-- What ends a line in the text of a value is a separator in a string of it. -/
theorem mem_print_of_isLineBreak (value : Value F) {c : Char} (hc : c ∈ value.print dumps)
    (hbreak : Texts.isLineBreak c = true) :
    ∃ s ∈ value.strings, c ∈ s ∧ isSeparator c = true := by
  refine Json.print_all (Q := fun c => Texts.isLineBreak c = true →
    ∃ s ∈ value.strings, c ∈ s ∧ isSeparator c = true) value ?_ ?_ ?_ c hc hbreak
  · intro d hd hbreak
    have hplain : ∀ c ∈ Json.punctuation, Texts.isLineBreak c = false :=
      Json.forall_of_all (by decide)
    rw [hplain d hd] at hbreak
    cases hbreak
  · intro s hs b hb d hd hbreak
    rcases mem_escape hd with ⟨rfl, hraw⟩ | hvisible
    · exact ⟨s, hs, hb, isSeparator_of_isLineBreak hraw hbreak⟩
    · rw [not_isLineBreak_of_visible hvisible] at hbreak
      cases hbreak
  · intro n hn d hd hbreak
    have htoken := List.all_eq_true.mp (isNumber_isTokenChar (isNumber_dumps n)) d hd
    simp only [Texts.isLineBreak, List.contains_eq_mem, decide_eq_true_eq, List.mem_cons,
      List.not_mem_nil, or_false] at hbreak
    rcases hbreak with rfl | rfl | rfl | rfl | rfl | rfl | rfl | rfl | rfl | rfl <;>
      exact absurd htoken (by decide)

omit [Pydantic F D] in
/-- A line is one line for `splitlines` if and only if no string of its event has a
separator. -/
theorem line_unbroken_iff (stored : StoredEvent F D) :
    (∀ c ∈ line stored, Texts.isLineBreak c = false) ↔ Unseparated stored.event := by
  constructor
  · intro h s hs c hc
    rw [← Bool.not_eq_true]
    intro hseparator
    have hbreak := isLineBreak_of_isSeparator hseparator
    have hraw : c ∈ (dumps (F := F)).escape c := by
      change c ∈ escapeChar (fun c => ¬ c < ' ') c
      simp only [isSeparator, List.contains_eq_mem, decide_eq_true_eq, List.mem_cons,
        List.not_mem_nil, or_false] at hseparator
      rcases hseparator with rfl | rfl | rfl <;> decide
    have hmem := Json.mem_print _ ((mem_strings_line stored).mpr (.inr hs)) hc hraw
    rw [← line_eq_print] at hmem
    rw [h c hmem] at hbreak
    cases hbreak
  · intro h c hc
    rw [← Bool.not_eq_true]
    intro hbreak
    rw [line_eq_print] at hc
    obtain ⟨s, hs, hmem, hseparator⟩ := mem_print_of_isLineBreak _ hc hbreak
    rcases (mem_strings_line stored).mp hs with rfl | hs
    · have hplain : ∀ c ∈ "seq".toList, isSeparator c = false := Json.forall_of_all (by decide)
      rw [hplain c hmem] at hseparator
      cases hseparator
    · rw [h s hs c hmem] at hseparator
      cases hseparator

omit [Pydantic F D] in
/-- No line has a line feed or a carriage return. -/
theorem notMem_line (stored : StoredEvent F D) {c : Char} (hc : c = '\n' ∨ c = '\r') :
    c ∉ line stored := by
  intro hmem
  have hbreak : Texts.isLineBreak c = true := by
    rcases hc with rfl | rfl <;> rfl
  rw [line_eq_print] at hmem
  obtain ⟨s, hs, hmem, hseparator⟩ := mem_print_of_isLineBreak _ hmem hbreak
  rcases hc with rfl | rfl <;> cases hseparator

end Tracewake.Cassettes
