import Tracewake.Recording.Scrubbing
import Tracewake.Recording.Strict

/-!
# Redacted events

The dump of an event is walked and validated again. Validation is the work of `pydantic`:
where it accepts a dump in which strings were replaced, the event has what was validated.
-/

namespace Tracewake.Recording

open JsonText Texts
open Results (lessCodePoints keyOrder)

variable {F D : Type} [Python F]

namespace Redactor

/-- A key is walked on its own. -/
theorem lookup_walkFields (redactor : Redactor F D) (key : Text) (fields : List (Text × Value F)) :
    Json.lookup key (redactor.walkFields fields) = (Json.lookup key fields).map fun value =>
      if redactor.isFilteredKey key then .str redacted else redactor.walk value := by
  induction fields with
  | nil => rfl
  | cons f rest ih =>
    obtain ⟨k, value⟩ := f
    rw [walkFields, Json.lookup_cons, Json.lookup_cons, ih]
    by_cases hk : k = key
    · subst hk
      simp
    · simp [hk]

/-- Walking the fields leaves them sorted as they are: no key changes. -/
theorem walkFields_canon (redactor : Redactor F D) {fields : List (Text × Value F)}
    (h : Json.canonFields lessCodePoints fields = fields) :
    Json.canonFields lessCodePoints (redactor.walkFields fields) = redactor.walkFields fields := by
  have hobject : (Json.obj fields).canon lessCodePoints = .obj fields := by rw [Json.canon, h]
  exact Json.obj.inj (redactor.walk_canon hobject)

variable [Sha256 D] (redactor : Redactor F D)

/-- What `event` hands to `_walk`. -/
def data (event : Event F D) : List (Text × Value F) :=
  if redactor.readsSecret event then assign "value" (.str redacted) (dictionary event.fields)
  else dictionary event.fields

/-- What `event` hands to the validation. -/
def scrubbed (event : Event F D) : Value F :=
  .obj (assign "meta" (event.eventMeta.dump.canon lessCodePoints)
    (redactor.walkFields (redactor.data event)))

/-- The data are a dump, where the value of a secret variable is replaced. -/
theorem data_eq (event : Event F D) : redactor.data event = dictionary (event.fields ++
    if redactor.readsSecret event then [("value", .str redacted)] else []) := by
  rw [data]
  split
  · exact assign_dictionary "value" (.str redacted) event.fields
  · rw [List.append_nil]

/-- The scrubbed fields of an event are sorted as they stand. -/
theorem data_canon (event : Event F D) :
    Json.canonFields lessCodePoints (redactor.data event) = redactor.data event := by
  rw [data_eq, dictionary]
  exact Json.obj.inj (canonFields_canonical _)

/-- A scrubbed event is canonical. -/
theorem scrubbed_canon (event : Event F D) :
    (redactor.scrubbed event).canon lessCodePoints = redactor.scrubbed event := by
  have hwalk := redactor.walkFields_canon (redactor.data_canon event)
  rw [scrubbed, ← hwalk, assign, Json.setField_canonFields keyOrder]
  exact canonFields_canonical _

/-- A key other than that of the `meta` holds the walked value. -/
theorem field_scrubbed (event : Event F D) {key : String} (hkey : key ≠ "meta") :
    (redactor.scrubbed event).field key.toList =
      ((Json.obj (redactor.data event)).field key.toList).map fun value =>
        if redactor.isFilteredKey key.toList then .str redacted else redactor.walk value := by
  have hordered : Json.Ordered lessCodePoints (redactor.data event) := by
    rw [← data_canon]
    exact Json.canonFields_ordered keyOrder _
  have hwalked : Json.Ordered lessCodePoints (redactor.walkFields (redactor.data event)) := by
    rw [← redactor.walkFields_canon (redactor.data_canon event)]
    exact Json.canonFields_ordered keyOrder _
  have hne : key.toList ≠ "meta".toList := fun h => hkey (String.toList_inj.mp h)
  have herased : Json.Ordered lessCodePoints (Json.eraseKey "meta".toList
      (redactor.walkFields (redactor.data event))) := Json.eraseKey_ordered hwalked
  have hassigned : Json.Ordered lessCodePoints (assign "meta"
      (event.eventMeta.dump.canon lessCodePoints) (redactor.walkFields (redactor.data event))) :=
    Json.insertField_ordered keyOrder herased
  rw [scrubbed, Json.field_eq_lookup keyOrder hassigned, Json.field_eq_lookup keyOrder hordered,
    assign, Json.setField, Json.lookup_insertField keyOrder herased, if_neg hne,
    Json.lookup_eraseKey, if_neg hne, lookup_walkFields]

variable [Pydantic F D]

/-- What `event` returns of an event that was validated. -/
def hooked (event : Event F D) : Option (Event F D) :=
  match redactor.beforeRecord with
  | some hook => hook event
  | none => some event

/-- The event is what validation gives back, after the hook. -/
theorem event_eq_hooked (henabled : redactor.enabled = true) (event : Event F D) :
    redactor.event event = (Pydantic.validate (redactor.scrubbed event)).map redactor.hooked := by
  rw [Redactor.event, if_pos henabled]
  change (Pydantic.validate (redactor.scrubbed event)).bind _ = _
  cases Pydantic.validate (D := D) (redactor.scrubbed event) with
  | none => rfl
  | some valid =>
    rw [Option.map_some, hooked]
    cases redactor.beforeRecord <;> rfl

/-- Without a hook the event is what validation gives back. -/
theorem event_eq (henabled : redactor.enabled = true) (hhook : redactor.beforeRecord = none)
    (event : Event F D) :
    redactor.event event = (Pydantic.validate (redactor.scrubbed event)).map some := by
  have hhooked : redactor.hooked = some := by
    funext valid
    rw [hooked, hhook]
  rw [redactor.event_eq_hooked henabled, hhooked]

/-- An event in which nothing is replaced is recorded as it is. -/
theorem event_unchanged (henabled : redactor.enabled = true) (hhook : redactor.beforeRecord = none)
    {event : Event F D} (hsecret : redactor.readsSecret event = false)
    (hkeys : ∀ k ∈ redactor.keysFields (dictionary event.fields), redactor.isFilteredKey k = false)
    (htexts : ∀ s ∈ redactor.reachedFields (dictionary event.fields), redactor.text s = s) :
    redactor.event event = some (some event) := by
  have hwalk : redactor.walkFields (dictionary event.fields) = dictionary event.fields := by
    have hsame : redactor.walk (.obj (dictionary event.fields)) = .obj (dictionary event.fields) :=
      walk_eq_self hkeys htexts
    exact Json.obj.inj hsame
  have hscrubbed : redactor.scrubbed event = event.dumpAll.canon lessCodePoints := by
    rw [scrubbed, data, hsecret, if_neg Bool.false_ne_true, hwalk, assign_dictionary,
      ← record_canon]
    rfl
  rw [redactor.event_eq henabled hhook, hscrubbed, Pydantic.validate_dumpAll]
  rfl

end Redactor

/-- A dump in which strings were replaced is validated to an event, and to a message, that
is dumped to the same: every field keeps the value that it accepts. -/
structure Exact (F D : Type) [Python F] [Sha256 D] [Pydantic F D] : Prop where
  event : ∀ (redactor : Redactor F D) (event redacted : Event F D),
    Pydantic.validate (redactor.scrubbed event) = some redacted →
      redacted.dumpAll.canon lessCodePoints = redactor.scrubbed event
  message : ∀ (redactor : Redactor F D) (message redacted : Message),
    Pydantic.validateMessage D
        (redactor.walk ((Message.dump message : Value F).canon lessCodePoints)) = some redacted →
      (Message.dump redacted : Value F).canon lessCodePoints =
        redactor.walk ((Message.dump message).canon lessCodePoints)

/-! ## Fields of walked dumps -/

/-- The last field with a name. -/
def lastField (key : String) (fields : List (String × Value F)) : Option (Value F) :=
  (fields.reverse.find? fun field => field.1 = key).map Prod.snd

/-- The fields of a recorded event are those of the walked dump. -/
theorem lastField_recorded [Sha256 D] {redactor : Redactor F D} {event recorded : Event F D}
    (h : recorded.dumpAll.canon lessCodePoints = redactor.scrubbed event) (key : String)
    (hkey : key ≠ "meta") :
    (lastField key (recorded.fields ++ [("meta", recorded.eventMeta.dump)])).map
        (Json.canon lessCodePoints) =
      (lastField key (event.fields ++ if redactor.readsSecret event then
        [("value", .str redacted)] else [])).map fun value =>
          if redactor.isFilteredKey key.toList then .str redacted
          else redactor.walk (value.canon lessCodePoints) := by
  rw [lastField, lastField, ← field_record, ← field_record, ← Json.field_canon keyOrder]
  change (recorded.dumpAll.canon lessCodePoints).field key.toList = _
  rw [h, redactor.field_scrubbed event hkey, redactor.data_eq, ← record_canon,
    Json.field_canon keyOrder, Option.map_map]
  rfl

/-! ## A validator that accepts dumps only -/

/-- What is loaded, where it is dumped to the same. -/
def loadExactly {α : Type} (load : Value F → Option α) (dump : α → Value F) (value : Value F) :
    Option α :=
  (load value).filter fun a => canonicalJson (dump a) = canonicalJson value

/-- What is dumped loads exactly: dumping it again gives the same. -/
theorem loadExactly_dump {α : Type} {load : Value F → Option α} {dump : α → Value F}
    (h : ∀ a, load ((dump a).canon lessCodePoints) = some a) (a : α) :
    loadExactly load dump ((dump a).canon lessCodePoints) = some a := by
  simp [loadExactly, h, canonicalJson_canon, Option.filter]

/-- What was loaded exactly dumps as what it was loaded from. -/
theorem dump_loadExactly {α : Type} {load : Value F → Option α} {dump : α → Value F} {a : α}
    {value : Value F} (hcanon : value.canon lessCodePoints = value)
    (h : loadExactly load dump value = some a) : (dump a).canon lessCodePoints = value := by
  have hsame := (Option.filter_eq_some_iff.mp h).2
  rw [decide_eq_true_eq] at hsame
  rw [canonicalJson_inj hsame, hcanon]

variable [Sha256 D]

/-- An event loads exactly from its dump. -/
theorem loadExactly_dumpAll (event : Event F D) :
    loadExactly Event.load Event.dumpAll (event.dumpAll.canon lessCodePoints) = some event :=
  loadExactly_dump load_dumpAll event

omit [Sha256 D] in
/-- A message loads exactly from its dump. -/
theorem loadExactly_message (message : Message) :
    loadExactly Message.load Message.dump ((Message.dump message : Value F).canon lessCodePoints) =
      some message :=
  loadExactly_dump message_loads.dumped message

omit [Sha256 D] in
/-- The metadata of an event are parsed from their text. -/
theorem loads_eventMeta (value : EventMeta F) :
    loads (canonicalJson value.dump) = some (value.dump.canon lessCodePoints) :=
  loads_canonicalJson value.dump

/-- The strict validator, which also refuses what it would change. -/
@[reducible] def exacting : Pydantic F D where
  validate := loadExactly Event.load Event.dumpAll
  validateMessage := loadExactly Message.load Message.dump
  metaJson value := canonicalJson value.dump
  validate_dumpAll := loadExactly_dumpAll
  validateMessage_dump := loadExactly_message
  loads_metaJson := loads_eventMeta

/-- A loader that demands that the dump comes back is exact. -/
theorem exacting_exact : @Exact F D _ _ exacting :=
  letI : Pydantic F D := exacting
  { event := fun redactor event _ h => dump_loadExactly (redactor.scrubbed_canon event) h
    message := fun redactor _ _ h =>
      dump_loadExactly (redactor.walk_canon (Json.canon_canon keyOrder _)) h }

/-! ## A redactor -/

/-- A redactor with a key and a home directory. -/
def keyRedactor : Redactor Decimal HexDigest where
  enabled := true
  values := ["sk-test-0123".toList]
  paths := [("/home/ada".toList, homePlaceholder)]

/-- The values of the example's redactor have the required length. -/
theorem keyRedactor_collected : keyRedactor.Collected where
  long := by decide
  longestFirst := List.pairwise_singleton _ _
  home := Or.inr ⟨"/home/ada".toList, by decide, by decide, rfl⟩

end Tracewake.Recording
