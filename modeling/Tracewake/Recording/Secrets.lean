import Tracewake.Recording.RedactedEvents
import Tracewake.Recording.PureReplay

/-!
# Secrets in recorded events

A secret is replaced in every string that the redactor reaches, and is left there only where
a placeholder completes it. Keys are copied and the `meta` is put back as it was, so it stays
where one of their keys holds it.
-/

namespace Tracewake.Recording

open JsonText Texts
open Results (lessCodePoints keyOrder)

variable {F D : Type} [Python F] [Sha256 D]

namespace Redactor

variable (redactor : Redactor F D)

/-- The mapping keys that a recorded event takes over: those that `_walk` copies and those
of the `meta`, which holds no other strings. -/
def recordedKeys (event : Event F D) : List Text :=
  redactor.keys (.obj (redactor.data event)) ++
    "meta".toList :: (event.eventMeta.dump.canon lessCodePoints).strings

omit [Python F] in
/-- No field of an event is called `meta`. -/
theorem meta_notMem_fields [Python F] (event : Event F D) :
    "meta" ∉ event.fields.map Prod.fst := by
  cases event <;> simp [Event.fields, Event.ownFields]

/-- The `meta` is not walked. -/
theorem data_keys (event : Event F D) : ∀ f ∈ redactor.data event, f.1 ≠ "meta".toList := by
  intro f hf
  rw [data_eq] at hf
  obtain ⟨g, hg, rfl⟩ := Json.mem_canonFields hf
  obtain ⟨named, hnamed, rfl⟩ := List.mem_map.mp hg
  have hname : named.1 ≠ "meta" := by
    rcases List.mem_append.mp hnamed with hnamed | hnamed
    · intro heq
      exact meta_notMem_fields event (heq ▸ List.mem_map_of_mem hnamed)
    · split at hnamed
      · rw [List.mem_singleton.mp hnamed]
        simp
      · cases hnamed
  exact fun h => hname (String.toList_inj.mp h)

/-- A text that is no part of the placeholder is in a scrubbed dump where a key or a redacted
string holds it. -/
theorem scrubbed_mentions {secret : Text} (hredacted : ¬ secret <:+: redacted)
    (event : Event F D) :
    (∃ s ∈ (redactor.scrubbed event).strings, secret <:+: s) ↔
      (∃ k ∈ redactor.recordedKeys event, secret <:+: k) ∨
        ∃ s ∈ redactor.reached (.obj (redactor.data event)), secret <:+: redactor.text s := by
  have hwalk := redactor.walk_mentions hredacted (.obj (redactor.data event))
  have hkeys : ∀ f ∈ redactor.walkFields (redactor.data event), f.1 ≠ "meta".toList := by
    intro f hf
    rw [walkFields_eq] at hf
    obtain ⟨g, hg, rfl⟩ := List.mem_map.mp hf
    exact redactor.data_keys event g hg
  have hstrings : ∀ s, s ∈ (redactor.scrubbed event).strings ↔
      s ∈ (redactor.walk (.obj (redactor.data event))).strings ∨
        s ∈ "meta".toList :: (event.eventMeta.dump.canon lessCodePoints).strings := by
    intro s
    simp only [scrubbed, assign, walk, Json.strings, Json.mem_stringsFields, Json.mem_setField,
      List.mem_cons]
    constructor
    · rintro ⟨f, rfl | ⟨hf, -⟩, hs⟩
      · exact .inr hs
      · exact .inl ⟨f, hf, hs⟩
    · rintro (⟨f, hf, hs⟩ | hs)
      · exact ⟨f, .inr ⟨hf, hkeys f hf⟩, hs⟩
      · exact ⟨_, .inl rfl, hs⟩
  simp only [hstrings, recordedKeys, List.mem_append, or_and_right, exists_or, hwalk]
  exact or_right_comm

end Redactor

variable [Pydantic F D]

/-- The text is in no string of the event, neither in a value nor in a key. -/
def Hides (secret : Text) (event : Event F D) : Prop :=
  ∀ s ∈ (event.dumpAll.canon lessCodePoints).strings, ¬ secret <:+: s

instance (secret : Text) (event : Event F D) : Decidable (Hides secret event) :=
  inferInstanceAs (Decidable (∀ s ∈ _, ¬ secret <:+: s))

/-- A validated event hides a secret exactly if none of the keys that were taken over holds it
and no placeholder completes it in a string that was redacted. -/
theorem hides_iff (hexact : Exact F D) {redactor : Redactor F D} (hcollected : redactor.Collected)
    (henabled : redactor.enabled = true) {secret : Text} (hsecret : secret ∈ redactor.values)
    (hredacted : ¬ secret <:+: redacted) {event valid : Event F D}
    (hvalid : Pydantic.validate (redactor.scrubbed event) = some valid) :
    Hides secret valid ↔ (∀ k ∈ redactor.recordedKeys event, ¬ secret <:+: k) ∧
      ∀ s ∈ redactor.reached (.obj (redactor.data event)), ¬ redactor.Completes secret s := by
  have hmentions := (redactor.scrubbed_mentions hredacted event).not
  have htext := Redactor.infix_text_iff hcollected henabled hsecret
  rw [Hides, hexact.event redactor event valid hvalid]
  simpa only [htext, not_or, not_exists, not_and] using hmentions

/-- A value of the environment. -/
def readText (text : String) : Event Decimal HexDigest :=
  .environment {
    source := .env, key := some "GREETING".toList, value := sortKeys (.str text.toList)
    eventMeta := ⟨half, none, none⟩ }

/-- A redactor with a second secret that begins as the placeholder ends. -/
def bracketRedactor : Redactor Decimal HexDigest where
  enabled := true
  values := ["]abcdefghijk".toList, "sk-test-0123".toList]

/-- The values of the example's redactor have the required length. -/
theorem bracketRedactor_collected : bracketRedactor.Collected where
  long := by decide
  longestFirst := by decide
  home := Or.inl rfl

/-- The validator gives back the event with the redacted text. -/
theorem readText_validated {text text' : String}
    (h : canonicalJson (bracketRedactor.scrubbed (readText text)) =
      canonicalJson (readText text').dumpAll) :
    letI : Pydantic Decimal HexDigest := exacting
    Pydantic.validate (bracketRedactor.scrubbed (readText text)) = some (readText text') := by
  let _ : Pydantic Decimal HexDigest := exacting
  have hsame := canonicalJson_inj h
  rw [Redactor.scrubbed_canon] at hsame
  rw [hsame, Pydantic.validate_dumpAll]

/-- A tool call whose arguments have the key as a mapping key. -/
def keyedCall : Event Decimal HexDigest :=
  .toolCall {
    parentCallId := "c0".toList, toolCallId := "t0".toList, batchIndex := 0, name := "http".toList
    args := ⟨[("sk-test-0123".toList, .null)], rfl⟩, argsHash := "00".toList
    result := ⟨Sha256.hash [], 0⟩, status := .ok, error := none, eventMeta := ⟨half, none, none⟩ }

end Tracewake.Recording
