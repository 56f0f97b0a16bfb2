import Tracewake.Recording.Store

/-!
# Redaction

The redactor scrubs what is on its way to the store. Its globs are matched by `fnmatch`,
so the two predicates on names stand for the lists of globs; the secret values and the
home directory are the ones that it collected when it was built.
-/

namespace Tracewake.Recording

open JsonText
open Results (lessCodePoints keyOrder)

variable {F D : Type}

/-- `REDACTED`. -/
def redacted : Text := "[REDACTED]".toList

/-- `str.replace`, where `skip` characters of the last match are still ahead. -/
def replaceFrom (old new : Text) : ℕ → Text → Text
  | _, [] => []
  | skip + 1, _ :: rest => replaceFrom old new skip rest
  | 0, c :: rest =>
    if old.isPrefixOf (c :: rest) then new ++ replaceFrom old new (old.length - 1) rest
    else c :: replaceFrom old new 0 rest

/-- `str.replace` of a text that is not empty. -/
def replace (old new text : Text) : Text :=
  replaceFrom old new 0 text

/-- `Redactor`. -/
structure Redactor (F D : Type) [Python F] where
  enabled : Bool
  beforeRecord : Option (Event F D → Option (Event F D)) := none
  isSecretEnv : Text → Bool := fun _ => false
  isFilteredKey : Text → Bool := fun _ => false
  values : List Text := []
  paths : List (Text × Text) := []

namespace Redactor

variable [Python F] (redactor : Redactor F D)

/-- `text`. -/
def text (value : Text) : Text :=
  if redactor.enabled then
    let value := redactor.values.foldl (fun value secret => replace secret redacted value) value
    redactor.paths.foldl (fun value path => replace path.1 path.2 value) value
  else value

/-- `restore_path`. -/
def restorePath (value : CanonicalValue F) : CanonicalValue F :=
  match value.value with
  | .str s =>
    if redactor.enabled then
      ⟨.str (redactor.paths.foldl (fun s path => replace path.2 path.1 s) s), rfl⟩
    else value
  | _ => value

/-- `blob`: bytes that are no text are left alone. -/
def blob (data : List UInt8) : List UInt8 :=
  if redactor.enabled then
    match Utf8.decode none data with
    | some text => Utf8.encode (redactor.text text)
    | none => data
  else data

mutual

/-- `_walk` without a key. -/
def walk : Value F → Value F
  | .str s => .str (redactor.text s)
  | .obj fields => .obj (walkFields fields)
  | .arr items => .arr (walkItems items)
  | value => value

/-- `_walk` on the fields of a dictionary, each under its key. -/
def walkFields : List (Text × Value F) → List (Text × Value F)
  | [] => []
  | (key, value) :: rest =>
    (key, if redactor.isFilteredKey key then .str redacted else walk value) :: walkFields rest

def walkItems : List (Value F) → List (Value F)
  | [] => []
  | value :: rest => walk value :: walkItems rest

end

/-- Fields are walked one by one, and a filtered one is replaced as a whole. -/
theorem walkFields_eq (fields : List (Text × Value F)) : redactor.walkFields fields =
    fields.map fun field =>
      (field.1, if redactor.isFilteredKey field.1 then .str redacted else redactor.walk field.2) := by
  induction fields with
  | nil => rfl
  | cons field rest ih => simp [walkFields, ih]

/-- Items are walked one by one. -/
theorem walkItems_eq (items : List (Value F)) :
    redactor.walkItems items = items.map redactor.walk := by
  induction items with
  | nil => rfl
  | cons item rest ih => simp [walkItems, ih]

/-- The keys stay, so a canonical value stays canonical. -/
theorem walk_canon {value : Value F} (h : value.canon lessCodePoints = value) :
    (redactor.walk value).canon lessCodePoints = redactor.walk value := by
  induction value using Json.induction with
  | null | bool | num | str => rfl
  | arr items ih =>
    simp only [Json.canon, Json.canonItems_eq, Json.arr.injEq] at h
    simp only [walk, walkItems_eq, Json.canon, Json.canonItems_eq, List.map_map, Json.arr.injEq]
    refine List.map_congr_left fun item hitem => ih item hitem ?_
    rw [← List.map_id items, List.map_map] at h
    exact List.map_inj_left.mp h item hitem
  | obj fields ih =>
    have hfields : Json.canonFields lessCodePoints fields = fields := by
      simpa only [Json.canon, Json.obj.injEq] using h
    have hordered : Json.Ordered lessCodePoints fields := by
      rw [← hfields]
      exact Json.canonFields_ordered keyOrder fields
    have hvalues : ∀ field ∈ fields, field.2.canon lessCodePoints = field.2 := by
      intro field hfield
      rw [← hfields] at hfield
      obtain ⟨g, _, rfl⟩ := Json.mem_canonFields hfield
      exact Json.canon_canon keyOrder g.2
    simp only [walk, walkFields_eq, Json.canon, Json.obj.injEq]
    refine Json.canonFields_of_ordered (List.pairwise_map.mpr hordered) ?_
    intro field hfield
    obtain ⟨g, hg, rfl⟩ := List.mem_map.mp hfield
    dsimp only
    split
    · rfl
    · exact ih g hg (hvalues g hg)

/-- `args`. -/
def args (args : CanonicalMapping F) : CanonicalMapping F :=
  if redactor.enabled then
    ⟨redactor.walkFields args.fields, redactor.walk_canon args.sorted⟩
  else args

variable [Sha256 D] [Pydantic F D]

/-- `messages`: `none` where validation raises. -/
def messages (messages : List Message) : Option (List Message) :=
  if redactor.enabled then
    messages.mapM fun message => Pydantic.validateMessage D
      (redactor.walk ((Message.dump message : Value F).canon lessCodePoints))
  else some messages

/-- The event reads an environment variable that holds a secret. -/
def readsSecret : Event F D → Bool
  | .environment event =>
    event.source = .env && event.key.any redactor.isSecretEnv
  | _ => false

/-- `event`: `none` where validation raises, `some none` where the hook drops the event. -/
def event (event : Event F D) : Option (Option (Event F D)) := do
  let event ←
    if redactor.enabled then
      let data := dictionary event.fields
      let data := if redactor.readsSecret event then assign "value" (.str redacted) data else data
      Pydantic.validate (.obj (assign "meta" (event.eventMeta.dump.canon lessCodePoints)
        (redactor.walkFields data)))
    else some event
  match redactor.beforeRecord with
  | some hook => some (hook event)
  | none => some (some event)

end Redactor

/-- Redaction is off and there is no hook. -/
def Redactor.disabled [Python F] : Redactor F D where
  enabled := false

end Tracewake.Recording
