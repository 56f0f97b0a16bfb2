import Tracewake.Results.Canonical
import Mathlib.Algebra.Group.Nat.Defs

/-!
# Values of a recording

Events carry JSON values of the interpreter: integers of any size and binary floating
point numbers. This module holds `canonical_json`, its reader `json.loads` and the round
trip between them. A dictionary is kept as its fields in key order, since nothing that is
modelled reads the order of insertion.
-/

namespace Tracewake.Recording

open JsonText
open Results (lessCodePoints keyOrder)

/-- A number of the interpreter. -/
inductive Number (F : Type) where
  | int (n : ℤ)
  | float (x : F)
  deriving DecidableEq

/-- `JsonValue`. -/
abbrev Value (F : Type) := Json (Number F)

/-- The most digits that the interpreter writes of an integer. -/
def maxStrDigits : ℕ := 4300

/-- The number is a float, or an integer that is not too long to be written. -/
def Number.printable {F : Type} : Number F → Bool
  | .int n => n.natAbs < 10 ^ maxStrDigits
  | .float _ => true

/-- The interpreter can write the value: of one with a longer integer in it `str` raises
`ValueError`. -/
def Printable {F : Type} (value : Value F) : Prop :=
  ∀ n ∈ value.numbers, n.printable = true

instance {F : Type} (value : Value F) : Decidable (Printable value) :=
  inferInstanceAs (Decidable (∀ n ∈ value.numbers, n.printable = true))

/-- What the interpreter does with its finite floating point numbers, which are `F`:
`repr` and `float`. `str` is the text that it makes of a value that it can write. -/
class Python (F : Type) where
  repr : F → Text
  parse : Text → Option F
  str : Value F → Text
  isNumber_repr : ∀ x, isNumber (repr x) = true
  not_integral_repr : ∀ x, ¬ Integral (repr x)
  parse_repr : ∀ x, parse (repr x) = some x
  str_str : ∀ s, str (.str s) = s

variable {F : Type} [Python F]

/-- How `json.dumps` writes a number. -/
def Number.dumps : Number F → Text
  | .int n => printInt n
  | .float x => Python.repr x

/-- `json.dumps` with `separators=(",", ":")` and `ensure_ascii=False`. -/
def dumps : Style (Number F) where
  escape := escapeChar fun c => ¬ c < ' '
  number := Number.dumps

/-- How `json.loads` reads strings and numbers. -/
def loader : Dialect (Number F) where
  lone := none
  number token :=
    if isNumber token = true then
      if Integral token then some (.int (readInt token))
      else (Python.parse token).map .float
    else none

/-- `canonical_json`. -/
def canonicalJson (value : Value F) : Text :=
  (value.canon lessCodePoints).print dumps

/-- `json.loads`. -/
def loads (text : Text) : Option (Value F) :=
  (parse loader text).map (Json.canon lessCodePoints)

/-- What is printed for a number is a number. -/
theorem isNumber_dumps (n : Number F) : isNumber n.dumps = true := by
  cases n with
  | int n => exact isNumber_printInt n
  | float x => exact Python.isNumber_repr x

/-- What is printed for a number loads as that number. -/
theorem loader_dumps (n : Number F) : loader.number n.dumps = some n := by
  simp only [loader, isNumber_dumps, ↓reduceIte]
  cases n with
  | int n => simp only [Number.dumps, integral_printInt, ↓reduceIte, readInt_printInt]
  | float x =>
    simp only [Number.dumps, Python.not_integral_repr, ↓reduceIte, Python.parse_repr,
      Option.map_some]

/-- The reader reads what the writer writes. -/
theorem dumps_reads : (dumps : Style (Number F)).Reads loader fun _ => True where
  char := readChar_escapeChar _ (by simp)
  closes := escapeChar_head _
  number n _ := loader_dumps n
  token n _ := isNumber_isTokenChar (isNumber_dumps n)
  starts n _ := isNumber_head (isNumber_dumps n)

/-- A value is read back from its print. -/
theorem parse_dumps (v : Value F) : parse loader (v.print dumps) = some v :=
  parse_print dumps_reads v fun _ _ => trivial

/-- Reading canonical JSON gives the value with its keys in order. -/
theorem loads_canonicalJson (v : Value F) :
    loads (canonicalJson v) = some (v.canon lessCodePoints) := by
  simp only [loads, canonicalJson, parse_dumps, Option.map_some, Json.canon_canon keyOrder]

/-- Canonical JSON determines a value up to the order of its keys. -/
theorem canonicalJson_inj {v w : Value F} (h : canonicalJson v = canonicalJson w) :
    v.canon lessCodePoints = w.canon lessCodePoints := by
  have hloads := congrArg (loads (F := F)) h
  simpa only [loads_canonicalJson, Option.some.injEq] using hloads

/-- A canonical value is written without reordering. -/
theorem canonicalJson_canon (v : Value F) :
    canonicalJson (v.canon lessCodePoints) = canonicalJson v := by
  rw [canonicalJson, Json.canon_canon keyOrder, canonicalJson]

/-! ## Canonical values -/

/-- `CanonicalValue`: every dictionary in it has its keys in order. -/
structure CanonicalValue (F : Type) where
  value : Value F
  sorted : value.canon lessCodePoints = value

/-- `CanonicalMapping`. -/
structure CanonicalMapping (F : Type) where
  fields : List (Text × Value F)
  sorted : (Json.obj fields).canon lessCodePoints = .obj fields

omit [Python F] in
/-- Sorted fields make a canonical mapping. -/
theorem canonFields_canonical (fields : List (Text × Value F)) :
    (Json.obj (Json.canonFields lessCodePoints fields)).canon lessCodePoints =
      .obj (Json.canonFields lessCodePoints fields) :=
  Json.canon_canon keyOrder (.obj fields)

/-- No fields. -/
def CanonicalMapping.empty : CanonicalMapping F := ⟨[], rfl⟩

/-- The mapping as a value. -/
def CanonicalMapping.value (mapping : CanonicalMapping F) : Value F :=
  .obj mapping.fields

/-- `_sort_keys` on any value. -/
def sortKeys (value : Value F) : CanonicalValue F where
  value := value.canon lessCodePoints
  sorted := Json.canon_canon keyOrder value

/-- `dict.get` on a mapping. -/
def CanonicalMapping.get? (mapping : CanonicalMapping F) (key : Text) : Option (Value F) :=
  mapping.value.field key

end Tracewake.Recording
