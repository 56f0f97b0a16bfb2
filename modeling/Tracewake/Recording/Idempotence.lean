import Tracewake.Recording.RedactedEvents
import Tracewake.Recording.RecordedRuns
import Tracewake.Recording.PureReplay

/-!
# Redacting twice

The messages and arguments of a call are redacted before they are hashed, and once more
with the event that holds them. Their hash is that of what is stored when the second time
changes nothing, and that is so unless a placeholder completes something that is replaced.
-/

namespace Tracewake.Recording

open JsonText Texts
open Results (lessCodePoints keyOrder)

variable {F D W : Type}

/-- Messages are determined by their dumps. -/
theorem messages_eq_of_dump {a b : List Message}
    (h : a.map (fun message => (Message.dump message : Value F).canon lessCodePoints) =
      b.map fun message => (Message.dump message : Value F).canon lessCodePoints) : a = b := by
  have hinjective : Function.Injective
      fun message : Message => (Message.dump message : Value F).canon lessCodePoints := by
    intro m n hmn
    have hm := message_loads.dumped (F := F) m
    rw [show (Message.dump m : Value F).canon lessCodePoints = _ from hmn,
      message_loads.dumped] at hm
    exact (Option.some.inj hm).symm
  exact hinjective.list_map h

variable [Python F] [Sha256 D]

/-- A recorded model call was a model call, whose messages and hash were walked. -/
theorem of_modelCall_recorded {redactor : Redactor F D} {event : Event F D}
    {stored : ModelCallEvent F}
    (h : (Event.modelCall (D := D) stored).dumpAll.canon lessCodePoints = redactor.scrubbed event) :
    ∃ call, event = .modelCall call ∧
      stored.messages.map (fun message => (Message.dump message : Value F).canon lessCodePoints) =
        call.messages.map (fun message =>
          redactor.walk ((Message.dump message : Value F).canon lessCodePoints)) ∧
      (redactor.isFilteredKey "messages_hash".toList = false →
        stored.messagesHash = redactor.text call.messagesHash) := by
  have hmessages := lastField_recorded h "messages" (by decide)
  have hhash := lastField_recorded h "messages_hash" (by decide)
  generalize redactor.isFilteredKey "messages".toList = filtered at hmessages
  generalize redactor.isFilteredKey "messages_hash".toList = filteredHash at hhash ⊢
  cases event with
  | modelCall call =>
    refine ⟨call, rfl, ?_, ?_⟩
    · cases filtered with
      | false =>
        simpa [lastField, Event.fields, Event.ownFields, Redactor.readsSecret, list, Json.canon,
          Json.canonItems_eq, Redactor.walk, Redactor.walkItems_eq, Function.comp_def] using hmessages
      | true =>
        simp [lastField, Event.fields, Event.ownFields, Redactor.readsSecret, list,
          Json.canon] at hmessages
    · rintro rfl
      simpa [lastField, Event.fields, Event.ownFields, Redactor.readsSecret, Json.canon,
        Redactor.walk] using hhash
  | environment event =>
    cases hsecret : redactor.readsSecret (.environment event) <;>
      simp [lastField, Event.fields, Event.ownFields, hsecret] at hhash
  | toolCall _ | fsRead _ | fsWrite _ | outcome _ | intervention _ =>
    simp [lastField, Event.fields, Event.ownFields, Redactor.readsSecret] at hhash

/-- A recorded tool call was a tool call, whose arguments and hash were walked. -/
theorem of_toolCall_recorded {redactor : Redactor F D} {event : Event F D}
    {stored : ToolCallEvent F D}
    (h : (Event.toolCall stored).dumpAll.canon lessCodePoints = redactor.scrubbed event) :
    ∃ call, event = .toolCall call ∧ stored.args.value = redactor.walk call.args.value ∧
      (redactor.isFilteredKey "args_hash".toList = false →
        stored.argsHash = redactor.text call.argsHash) := by
  have hargs := lastField_recorded h "args" (by decide)
  have hhash := lastField_recorded h "args_hash" (by decide)
  generalize redactor.isFilteredKey "args".toList = filtered at hargs
  generalize redactor.isFilteredKey "args_hash".toList = filteredHash at hhash ⊢
  cases event with
  | toolCall call =>
    refine ⟨call, rfl, ?_, ?_⟩
    · have hstored : stored.args.value.canon lessCodePoints = stored.args.value := stored.args.sorted
      have hcall : call.args.value.canon lessCodePoints = call.args.value := call.args.sorted
      cases filtered with
      | false =>
        simpa [lastField, Event.fields, Event.ownFields, Redactor.readsSecret, hstored,
          hcall] using hargs
      | true =>
        simp [lastField, Event.fields, Event.ownFields, Redactor.readsSecret,
          CanonicalMapping.value, Json.canon] at hargs
    · rintro rfl
      simpa [lastField, Event.fields, Event.ownFields, Redactor.readsSecret, Json.canon,
        Redactor.walk] using hhash
  | environment event =>
    cases hsecret : redactor.readsSecret (.environment event) <;>
      simp [lastField, Event.fields, Event.ownFields, hsecret] at hhash
  | modelCall _ | fsRead _ | fsWrite _ | outcome _ | intervention _ =>
    simp [lastField, Event.fields, Event.ownFields, Redactor.readsSecret] at hhash

/-! ## The hashes of recorded calls -/

/-- The hash of a call is that of its messages or arguments, where the redactor leaves
hashes alone. -/
def HashAgrees (redactor : Redactor F D) : Event F D → Prop
  | .modelCall call =>
    (redactor.enabled = true → redactor.isFilteredKey "messages_hash".toList = false) →
      redactor.Clean (hashMessages F D call.messages) →
        call.messagesHash = hashMessages F D call.messages
  | .toolCall call =>
    (redactor.enabled = true → redactor.isFilteredKey "args_hash".toList = false) →
      redactor.Clean (hashArgs D call.args) → call.argsHash = hashArgs D call.args
  | _ => True

variable [Pydantic F D]

/-- The messages that the redactor gave back are those that it walked. -/
theorem messages_dumped (hexact : Exact F D) {redactor : Redactor F D}
    (henabled : redactor.enabled = true) {messages stored : List Message}
    (h : redactor.messages messages = some stored) :
    stored.map (fun message => (Message.dump message : Value F).canon lessCodePoints) =
      messages.map fun message =>
        redactor.walk ((Message.dump message : Value F).canon lessCodePoints) := by
  rw [Redactor.messages, if_pos henabled] at h
  induction messages generalizing stored with
  | nil =>
    obtain rfl : stored = [] := by simpa using h.symm
    rfl
  | cons message rest ih =>
    simp only [List.mapM_cons, Option.bind_eq_bind, Option.bind_eq_some_iff] at h
    obtain ⟨first, hfirst, others, hothers, hstored⟩ := h
    obtain rfl : first :: others = stored := by simpa using hstored
    rw [List.map_cons, List.map_cons, hexact.message redactor message first hfirst, ih hothers]

/-- The messages, or the arguments, from which the redactor made those of a call. -/
def Given (redactor : Redactor F D) : Event F D → List (Value F) → Prop
  | .modelCall call, given => ∃ messages, redactor.messages messages = some call.messages ∧
      given = messages.map fun message => (Message.dump message : Value F).canon lessCodePoints
  | .toolCall call, given => ∃ args, redactor.args args = call.args ∧ given = [args.value]
  | _, given => given = []

/-- What was handed over was made from something that was given. -/
theorem Handed.given {redactor : Redactor F D} {event : Event F D} (h : Handed redactor event) :
    ∃ given, Given redactor event given := by
  cases event with
  | modelCall call =>
    obtain ⟨⟨messages, hmessages⟩, -⟩ := h
    exact ⟨_, messages, hmessages, rfl⟩
  | toolCall call =>
    obtain ⟨⟨args, hargs⟩, -⟩ := h
    exact ⟨_, args, hargs, rfl⟩
  | environment _ | fsRead _ | fsWrite _ | outcome _ | intervention _ => exact ⟨[], rfl⟩

/-- The hash of a recorded call is that of what was recorded with it, if redacting again
changes nothing in what was given. -/
theorem hash_of_recorded (hexact : Exact F D) {redactor : Redactor F D}
    (hcollected : redactor.Collected) (hhook : redactor.beforeRecord = none)
    {event recorded : Event F D} (hhanded : Handed redactor event)
    (h : redactor.event event = some (some recorded)) {given : List (Value F)}
    (hgiven : Given redactor event given)
    (htwice : ∀ value ∈ given, redactor.walk (redactor.walk value) = redactor.walk value) :
    HashAgrees redactor recorded := by
  cases henabled : redactor.enabled with
  | false =>
    obtain rfl : event = recorded := by simpa [Redactor.event, henabled, hhook] using h
    cases event with
    | modelCall call => exact fun _ _ => hhanded.2
    | toolCall call => exact fun _ _ => hhanded.2
    | environment _ | fsRead _ | fsWrite _ | outcome _ | intervention _ => trivial
  | true =>
    rw [redactor.event_eq henabled hhook, Option.map_eq_some_iff] at h
    obtain ⟨valid, hvalid, heq⟩ := h
    obtain rfl : valid = recorded := Option.some.inj heq
    have hdump := hexact.event redactor event valid hvalid
    cases valid with
    | modelCall stored =>
      obtain ⟨call, rfl, hmessages, hhash⟩ := of_modelCall_recorded hdump
      obtain ⟨messages, hwalked, rfl⟩ := hgiven
      have hdumps := messages_dumped hexact henabled hwalked
      have hagain : call.messages.map (fun message =>
          redactor.walk ((Message.dump message : Value F).canon lessCodePoints)) =
          call.messages.map fun message => (Message.dump message : Value F).canon lessCodePoints := by
        have hwalks := congrArg (List.map redactor.walk) hdumps
        rw [List.map_map, List.map_map] at hwalks
        rw [hdumps]
        refine hwalks.trans (List.map_congr_left fun message hmessage => ?_)
        exact htwice _ (List.mem_map_of_mem hmessage)
      have hsame : stored.messages = call.messages := messages_eq_of_dump (hmessages.trans hagain)
      intro hkey hclean
      rw [hhash (hkey henabled), hhanded.2, hsame]
      rw [hsame] at hclean
      exact Redactor.text_of_clean hcollected hclean
    | toolCall stored =>
      obtain ⟨call, rfl, hargs, hhash⟩ := of_toolCall_recorded hdump
      obtain ⟨args, hwalked, rfl⟩ := hgiven
      have hvalue : call.args.value = redactor.walk args.value := by
        rw [← hwalked, Redactor.args, if_pos henabled]
        rfl
      have hsame : stored.args.value = call.args.value := by
        rw [hargs, hvalue]
        exact htwice _ List.mem_cons_self
      have hhashes : hashArgs D stored.args = hashArgs D call.args := by
        rw [hashArgs, hashArgs, hsame]
      intro hkey hclean
      rw [hhash (hkey henabled), hhanded.2, hhashes]
      rw [hhashes] at hclean
      exact Redactor.text_of_clean hcollected hclean
    | environment _ | fsRead _ | fsWrite _ | outcome _ | intervention _ => trivial

omit [Sha256 D] [Pydantic F D] in
/-- Redacting a value again changes nothing exactly when no placeholder completes anything in
its strings, or everything is put back. -/
theorem walk_walk_iff_stays {redactor : Redactor F D} (hcollected : redactor.Collected)
    (value : Value F) : redactor.walk (redactor.walk value) = redactor.walk value ↔
      ∀ s ∈ redactor.reached value, redactor.Stays s ∨ redactor.Restored s := by
  rw [Redactor.walk_walk_iff]
  exact forall₂_congr fun s _ => Redactor.text_text_iff hcollected s

/-- A redactor whose secret begins and ends as the placeholder begins. -/
def openedRedactor : Redactor Decimal HexDigest where
  enabled := true
  values := ["[abcdefg[".toList]

/-- The values of the example's redactor have the required length. -/
theorem openedRedactor_collected : openedRedactor.Collected where
  long := by decide
  longestFirst := List.pairwise_singleton _ _
  home := Or.inl rfl

/-- The session of a new recording with that redactor. -/
def keyMachine : Machine Decimal HexDigest Unit where
  session := Session.new "run".toList .all keyRedactor [] none none
  store := {}
  outside := ()

end Tracewake.Recording
