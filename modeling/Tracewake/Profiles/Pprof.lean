import Tracewake.JsonText.Utf8
import Tracewake.WireFormat.Messages

/-!
# Profiles

Token spend is written as a profile: samples with stacks of locations, which point to
functions, which point to a table of strings. Equal names share one function and one
location. What is read back of a profile resolves to the stacks and the values that were
added, in order.
-/

namespace Tracewake.Profiles

open JsonText WireFormat

/-! ## Writing -/

/-- Zero is the default and is not written. -/
def encodeVarintField (field value : ℕ) : Bytes :=
  if value = 0 then [] else tag field 0 ++ varint value

/-- `_encode_bytes_field`. -/
def encodeBytesField (field : ℕ) (raw : Bytes) : Bytes :=
  tag field 2 ++ varint raw.length ++ raw

/-- `_encode_string_field`. -/
def encodeStringField (field : ℕ) (text : Text) : Bytes :=
  encodeBytesField field (Utf8.encode text)

/-- `_encode_message_field`. -/
def encodeMessageField (field : ℕ) (body : Bytes) : Bytes :=
  encodeBytesField field body

/-- What a profile cannot hold. -/
inductive WriteError
  /-- `sample value cannot be negative`. -/
  | negativeValue (value : ℤ)
  /-- `varint cannot encode a negative integer`. -/
  | negativeVarint (value : ℤ)
  deriving DecidableEq

/-- `_Profile`: functions, locations and samples are written already. -/
structure Profile where
  strings : List Text := [[]]
  stringIndex : Text → Option ℕ := Function.update (fun _ => none) [] (some 0)
  functions : List Bytes := []
  locations : List Bytes := []
  samples : List Bytes := []
  functionIds : Text → Option ℕ := fun _ => none
  locationIds : ℕ → Option ℕ := fun _ => none

namespace Profile

/-- `string`. -/
def string (profile : Profile) (text : Text) : ℕ × Profile :=
  match profile.stringIndex text with
  | some found => (found, profile)
  | none =>
    let index := profile.strings.length
    (index, { profile with
      strings := profile.strings ++ [text]
      stringIndex := Function.update profile.stringIndex text (some index) })

/-- `function`. -/
def function (profile : Profile) (name : Text) : ℕ × Profile :=
  match profile.functionIds name with
  | some found => (found, profile)
  | none =>
    let fid := profile.functions.length + 1
    let (index, profile) := profile.string name
    let body := encodeVarintField 1 fid ++ encodeVarintField 2 index ++ encodeVarintField 3 index
    (fid, { profile with
      functions := profile.functions ++ [body]
      functionIds := Function.update profile.functionIds name (some fid) })

/-- `location_for`. -/
def locationFor (profile : Profile) (functionId : ℕ) : ℕ × Profile :=
  match profile.locationIds functionId with
  | some found => (found, profile)
  | none =>
    let lid := profile.locations.length + 1
    let line := encodeVarintField 1 functionId
    let body := encodeVarintField 1 lid ++ encodeMessageField 4 line
    (lid, { profile with
      locations := profile.locations ++ [body]
      locationIds := Function.update profile.locationIds functionId (some lid) })

/-- The locations of names, one after the other. -/
def locate (profile : Profile) : List Text → List ℕ × Profile
  | [] => ([], profile)
  | name :: rest =>
    let (fid, profile) := profile.function name
    let (lid, profile) := profile.locationFor fid
    let (ids, profile) := profile.locate rest
    (lid :: ids, profile)

/-- The values of a sample. Zeros are written. -/
def encodeValues : List ℤ → Except WriteError Bytes
  | [] => .ok []
  | value :: rest =>
    if value < 0 then .error (.negativeValue value)
    else do
      let others ← encodeValues rest
      return tag 2 0 ++ varint value.toNat ++ others

/-- `add_sample`: the names are given from the root to the leaf and written from the leaf on. -/
def addSample (profile : Profile) (stackNames : List Text) (values : List ℤ) :
    Except WriteError Profile := do
  let (ids, profile) := profile.locate stackNames.reverse
  let values ← encodeValues values
  let body := ids.flatMap (encodeVarintField 1) ++ values
  return { profile with samples := profile.samples ++ [body] }

/-- The strings of comments. -/
def internAll (profile : Profile) : List Text → List ℕ × Profile
  | [] => ([], profile)
  | text :: rest =>
    let (index, profile) := profile.string text
    let (indices, profile) := profile.internAll rest
    (index :: indices, profile)

/-- The messages of the sample types. -/
def typeMessages (profile : Profile) : List (Text × Text) → List Bytes × Profile
  | [] => ([], profile)
  | (typeName, unit) :: rest =>
    let (typeIndex, profile) := profile.string typeName
    let (unitIndex, profile) := profile.string unit
    let (messages, profile) := profile.typeMessages rest
    ((encodeVarintField 1 typeIndex ++ encodeVarintField 2 unitIndex) :: messages, profile)

/-- The field of a time, which is left out where it is zero. -/
def encodeTime (field : ℕ) (nanos : ℤ) : Except WriteError Bytes :=
  if nanos < 0 then .error (.negativeVarint nanos) else .ok (encodeVarintField field nanos.toNat)

/-- `serialize`. -/
def serialize (profile : Profile) (sampleTypes : List (Text × Text)) (timeNanos durationNanos : ℤ)
    (comments : List Text) : Except WriteError Bytes := do
  let (typeMsgs, profile) := profile.typeMessages sampleTypes
  let (commentIds, profile) := profile.internAll comments
  let time ← encodeTime 9 timeNanos
  let duration ← encodeTime 10 durationNanos
  return typeMsgs.flatMap (encodeMessageField 1) ++
    profile.samples.flatMap (encodeMessageField 2) ++
    profile.locations.flatMap (encodeMessageField 4) ++
    profile.functions.flatMap (encodeMessageField 5) ++
    profile.strings.flatMap (encodeStringField 6) ++ time ++ duration ++
    commentIds.flatMap (encodeVarintField 13)

/-- The profile of samples that are added one after the other. -/
def ofSamples (samples : List (List Text × List ℤ)) : Except WriteError Profile :=
  samples.foldlM (fun profile sample => profile.addSample sample.1 sample.2) {}

end Profile

/-! ## Reading -/

/-- `_decode_value_type` and `_decode_function`: two numbers, and others that are ignored. -/
def pairHandler : Handler (ℕ × ℕ) where
  number field value pair :=
    if field = 1 then (value, pair.2) else if field = 2 then (pair.1, value) else pair
  chunk := none

/-- `_decode_value_type`. -/
def decodeValueType (chunk : Bytes) : Except ReadError (ℕ × ℕ) :=
  pairHandler.decode chunk (0, 0)

/-- `_decode_function`. -/
def decodeFunction (chunk : Bytes) : Except ReadError (ℕ × ℕ) :=
  pairHandler.decode chunk (0, 0)

/-- A sample as it is read. -/
structure DecodedSample where
  locationIds : List ℕ := []
  values : List ℕ := []
  deriving DecidableEq

/-- The fields of a sample. Labels are skipped. -/
def sampleHandler : Handler DecodedSample where
  number field value sample :=
    if field = 1 then { sample with locationIds := sample.locationIds ++ [value] }
    else if field = 2 then { sample with values := sample.values ++ [value] }
    else sample
  chunk := some fun _ _ sample => .ok sample

/-- `_decode_sample`. -/
def decodeSample (chunk : Bytes) : Except ReadError DecodedSample :=
  sampleHandler.decode chunk {}

/-- `_decode_line_function`. -/
def decodeLineFunction (chunk : Bytes) : Except ReadError ℕ :=
  Handler.decode {
    number := fun field value functionId => if field = 1 then value else functionId
    chunk := none } chunk 0

/-- `_decode_location`. -/
def decodeLocation (chunk : Bytes) : Except ReadError (ℕ × ℕ) :=
  Handler.decode {
    number := fun field value location => if field = 1 then (value, location.2) else location
    chunk := some fun field sub location =>
      if field = 4 then (decodeLineFunction sub).map fun functionId => (location.1, functionId)
      else .ok location } chunk (0, 0)

/-- Set an item of a dictionary. -/
def setItem (items : List (ℕ × ℕ)) (key value : ℕ) : List (ℕ × ℕ) :=
  if items.any fun item => item.1 = key then
    items.map fun item => if item.1 = key then (key, value) else item
  else items ++ [(key, value)]

/-- What `decode_profile` has read so far. -/
structure Decoding where
  sampleTypes : List (ℕ × ℕ) := []
  samples : List DecodedSample := []
  locations : List (ℕ × ℕ) := []
  functions : List (ℕ × ℕ) := []
  strings : List Text := []
  comments : List ℕ := []
  timeNanos : ℕ := 0
  durationNanos : ℕ := 0

/-- The fields of a profile. -/
def profileHandler : Handler Decoding where
  number field value state :=
    if field = 9 then { state with timeNanos := value }
    else if field = 10 then { state with durationNanos := value }
    else if field = 13 then { state with comments := state.comments ++ [value] }
    else state
  chunk := some fun field chunk state =>
    if field = 1 then do
      let sampleType ← decodeValueType chunk
      return { state with sampleTypes := state.sampleTypes ++ [sampleType] }
    else if field = 2 then do
      let sample ← decodeSample chunk
      return { state with samples := state.samples ++ [sample] }
    else if field = 4 then do
      let (lid, fid) ← decodeLocation chunk
      return { state with locations := setItem state.locations lid fid }
    else if field = 5 then do
      let (fid, name) ← decodeFunction chunk
      return { state with functions := setItem state.functions fid name }
    else if field = 6 then
      match Utf8.decode none chunk with
      | some text => .ok { state with strings := state.strings ++ [text] }
      | none => .error .notText
    else .ok state

/-- The profile that is read. -/
structure DecodedProfile where
  sampleTypes : List (Text × Text)
  samples : List DecodedSample
  locations : List (ℕ × ℕ)
  functions : List (ℕ × Text)
  strings : List Text
  comments : List Text
  timeNanos : ℕ
  durationNanos : ℕ
  deriving DecidableEq

/-- `strings[index]`. -/
def stringAt (strings : List Text) (index : ℕ) : Except ReadError Text :=
  match strings[index]? with
  | some text => .ok text
  | none => .error (.noIndex index)

/-- What `decode_profile` returns when all fields are read. -/
def Decoding.finish (state : Decoding) : Except ReadError DecodedProfile := do
  if state.strings[0]? ≠ some [] then .error .stringTable
  else
    let sampleTypes ← state.sampleTypes.mapM fun pair => do
      return (← stringAt state.strings pair.1, ← stringAt state.strings pair.2)
    let functions ← state.functions.mapM fun item => do
      return (item.1, ← stringAt state.strings item.2)
    let comments ← state.comments.mapM (stringAt state.strings)
    return {
      sampleTypes, samples := state.samples, locations := state.locations, functions
      strings := state.strings, comments
      timeNanos := state.timeNanos, durationNanos := state.durationNanos }

/-- `decode_profile`. -/
def decodeProfile (raw : Bytes) : Except ReadError DecodedProfile := do
  let state ← profileHandler.decode raw {}
  state.finish

/-- The names of locations, through their functions. -/
def DecodedProfile.stack (profile : DecodedProfile) (locationIds : List ℕ) : Option (List Text) :=
  locationIds.mapM fun lid => do
    let fid ← List.lookup lid profile.locations
    List.lookup fid profile.functions

end Tracewake.Profiles
