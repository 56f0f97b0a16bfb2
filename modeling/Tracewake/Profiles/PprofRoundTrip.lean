import Mathlib.Data.List.Infix
import Tracewake.Profiles.Pprof
import Tracewake.Sequences.Pairs

/-!
# Profiles are read back as they were written

The tables of a profile only grow, and what a sample points to stays where it is. Each
message is a list of fields, so that the reader of the wire format gives back the tables, and
the samples resolve to the stacks that were added.
-/

namespace Tracewake.Profiles

open JsonText WireFormat Sequences

/-! ## Messages as fields -/

/-- The field of a number that is written unless it is zero. -/
def numberField (field value : ℕ) : List Field :=
  if value = 0 then [] else [⟨field, .number value⟩]

/-- The fields of a sample. -/
def sampleFields (ids values : List ℕ) : List Field :=
  ids.flatMap (numberField 1) ++ values.map fun value => ⟨2, .number value⟩

/-- The fields of a location. -/
def locationFields (lid functionId : ℕ) : List Field :=
  numberField 1 lid ++ [⟨4, .chunk (encode (numberField 1 functionId))⟩]

/-- The fields of a function. -/
def functionFields (fid name : ℕ) : List Field :=
  numberField 1 fid ++ numberField 2 name ++ numberField 3 name

/-- The fields of a sample type. -/
def typeFields (typeIndex unitIndex : ℕ) : List Field :=
  numberField 1 typeIndex ++ numberField 2 unitIndex

section Messages

variable {σ : Type}

/-- A number field is written as its tag and its number. -/
theorem encode_numberField (field value : ℕ) :
    encode (numberField field value) = encodeVarintField field value := by
  rw [numberField, encodeVarintField]
  split
  · rfl
  · simp [Field.encode]

/-- Chunk fields are written one after the other. -/
theorem encode_chunks {α : Type} (field : ℕ) (f : α → Bytes) (items : List α) :
    encode (items.map fun item => ⟨field, .chunk (f item)⟩) =
      items.flatMap fun item => encodeBytesField field (f item) := by
  rw [encode, List.flatMap_map]
  rfl

/-- Groups of fields are written one after the other. -/
theorem encode_flatMap {α : Type} (f : α → List Field) (items : List α) :
    encode (items.flatMap f) = items.flatMap fun item => encode (f item) := by
  rw [encode, List.flatMap_assoc]
  rfl

/-- A function is written field by field. -/
theorem encode_functionFields (fid name : ℕ) : encode (functionFields fid name) =
    encodeVarintField 1 fid ++ encodeVarintField 2 name ++ encodeVarintField 3 name := by
  rw [functionFields, encode_append, encode_append, encode_numberField, encode_numberField,
    encode_numberField]

/-- A location is written field by field. -/
theorem encode_locationFields (lid functionId : ℕ) : encode (locationFields lid functionId) =
    encodeVarintField 1 lid ++ encodeMessageField 4 (encodeVarintField 1 functionId) := by
  rw [locationFields, encode_append, encode_numberField, encode_numberField]
  simp [Field.encode, encodeMessageField, encodeBytesField]

/-- A value type is written field by field. -/
theorem encode_typeFields (typeIndex unitIndex : ℕ) : encode (typeFields typeIndex unitIndex) =
    encodeVarintField 1 typeIndex ++ encodeVarintField 2 unitIndex := by
  rw [typeFields, encode_append, encode_numberField, encode_numberField]

/-- The fields of a number fit where the number can be read. -/
theorem numberField_fits {number value : ℕ} (hnumber : number < 2 ^ 74) (hvalue : Readable value) :
    ∀ field ∈ numberField number value, field.Fits := by
  intro field hfield
  rw [numberField] at hfield
  split at hfield
  · cases hfield
  · rw [List.mem_singleton.mp hfield]
    exact ⟨hnumber, hvalue⟩

/-- A number is handled once, if at all. -/
theorem foldlM_numberField (handler : Handler σ) (number value : ℕ) (state : σ) :
    (numberField number value).foldlM handler.field state =
      .ok (if value = 0 then state else handler.number number value state) := by
  rw [numberField]
  split
  · rfl
  · rfl

/-- A function is read back from its bytes. -/
theorem decodeFunction_encode {fid name : ℕ} (hfid : Readable fid) (hname : Readable name) :
    decodeFunction (encode (functionFields fid name)) = .ok (fid, name) := by
  have hfits : ∀ field ∈ functionFields fid name, field.Fits := by
    intro field hfield
    simp only [functionFields, List.mem_append] at hfield
    rcases hfield with (hfield | hfield) | hfield
    · exact numberField_fits (by omega) hfid field hfield
    · exact numberField_fits (by omega) hname field hfield
    · exact numberField_fits (by omega) hname field hfield
  rw [decodeFunction, Handler.decode_encode _ hfits, functionFields, List.foldlM_append,
    List.foldlM_append, foldlM_numberField]
  simp only [bind, Except.bind, foldlM_numberField]
  by_cases hzero : fid = 0 <;> by_cases hnone : name = 0 <;> simp [pairHandler, hzero, hnone]

/-- A value type is read back from its bytes. -/
theorem decodeValueType_encode {typeIndex unitIndex : ℕ} (htype : Readable typeIndex)
    (hunit : Readable unitIndex) :
    decodeValueType (encode (typeFields typeIndex unitIndex)) = .ok (typeIndex, unitIndex) := by
  have hfits : ∀ field ∈ typeFields typeIndex unitIndex, field.Fits := by
    intro field hfield
    rcases List.mem_append.mp hfield with hfield | hfield
    · exact numberField_fits (by omega) htype field hfield
    · exact numberField_fits (by omega) hunit field hfield
  rw [decodeValueType, Handler.decode_encode _ hfits, typeFields, List.foldlM_append,
    foldlM_numberField]
  simp only [bind, Except.bind, foldlM_numberField]
  by_cases hzero : typeIndex = 0 <;> by_cases hnone : unitIndex = 0 <;>
    simp [pairHandler, hzero, hnone]

/-- The line of a location is read back from its bytes. -/
theorem decodeLineFunction_encode {functionId : ℕ} (hfid : Readable functionId) :
    decodeLineFunction (encode (numberField 1 functionId)) = .ok functionId := by
  rw [decodeLineFunction, Handler.decode_encode _ (numberField_fits (by omega) hfid),
    foldlM_numberField]
  by_cases hzero : functionId = 0 <;> simp [hzero]

/-- A location is read back from its bytes. -/
theorem decodeLocation_encode {lid functionId : ℕ} (hlid : Readable lid)
    (hfid : Readable functionId) (hline : Readable (encode (numberField 1 functionId)).length) :
    decodeLocation (encode (locationFields lid functionId)) = .ok (lid, functionId) := by
  have hfits : ∀ field ∈ locationFields lid functionId, field.Fits := by
    intro field hfield
    rcases List.mem_append.mp hfield with hfield | hfield
    · exact numberField_fits (by omega) hlid field hfield
    · rw [List.mem_singleton.mp hfield]
      exact ⟨show 4 < 2 ^ 74 by omega, hline⟩
  rw [decodeLocation, Handler.decode_encode _ hfits, locationFields, List.foldlM_append,
    foldlM_numberField]
  simp only [bind, Except.bind, List.foldlM_cons, List.foldlM_nil, Handler.field,
    decodeLineFunction_encode hfid]
  by_cases hzero : lid = 0 <;> simp [hzero, Except.map, pure, Except.pure]

/-- A sample is read back from its bytes: its locations in order, and its values. -/
theorem decodeSample_encode {ids values : List ℕ} (hids : ∀ id ∈ ids, id ≠ 0 ∧ Readable id)
    (hvalues : ∀ value ∈ values, Readable value) :
    decodeSample (encode (sampleFields ids values)) = .ok ⟨ids, values⟩ := by
  have hfits : ∀ field ∈ sampleFields ids values, field.Fits := by
    intro field hfield
    rcases List.mem_append.mp hfield with hfield | hfield
    · obtain ⟨id, hid, hfield⟩ := List.mem_flatMap.mp hfield
      exact numberField_fits (by omega) (hids id hid).2 field hfield
    · obtain ⟨value, hvalue, rfl⟩ := List.mem_map.mp hfield
      exact ⟨show 2 < 2 ^ 74 by omega, hvalues value hvalue⟩
  have hlocations : ∀ sample : DecodedSample,
      (ids.flatMap (numberField 1)).foldlM (Handler.field sampleHandler) sample =
        .ok { sample with locationIds := sample.locationIds ++ ids } := by
    clear hfits
    induction ids with
    | nil => simp [pure, Except.pure]
    | cons id rest ih =>
      intro sample
      have hid := (hids id List.mem_cons_self).1
      rw [List.flatMap_cons, List.foldlM_append, foldlM_numberField]
      simp only [bind, Except.bind, if_neg hid]
      rw [ih fun other hother => hids other (List.mem_cons_of_mem id hother)]
      simp [sampleHandler]
  have hsampled : ∀ sample : DecodedSample,
      (values.map fun value => ⟨2, .number value⟩).foldlM (Handler.field sampleHandler) sample =
        .ok { sample with values := sample.values ++ values } := by
    clear hfits hvalues
    induction values with
    | nil => simp [pure, Except.pure]
    | cons value rest ih =>
      intro sample
      rw [List.map_cons, List.foldlM_cons]
      simp only [bind, Except.bind, Handler.field]
      rw [ih]
      simp [sampleHandler]
  rw [decodeSample, Handler.decode_encode _ hfits, sampleFields, List.foldlM_append, hlocations]
  simp only [bind, Except.bind, hsampled]
  rfl

end Messages

/-! ## Tables -/

/-- The tables of a profile hold what was asked for: `names` are the strings of the functions
and `targets` the functions of the locations. -/
structure Profile.Sound (profile : Profile) (names targets : List ℕ) : Prop where
  empty : profile.strings[0]? = some []
  strings : ∀ text index, profile.stringIndex text = some index →
    profile.strings[index]? = some text
  functions : profile.functions = names.mapIdx fun k name => encode (functionFields (k + 1) name)
  functionIds : ∀ name fid, profile.functionIds name = some fid →
    ∃ k index, fid = k + 1 ∧ names[k]? = some index ∧ profile.strings[index]? = some name
  named : ∀ index ∈ names, index < profile.strings.length
  locations : profile.locations = targets.mapIdx fun k fid => encode (locationFields (k + 1) fid)
  locationIds : ∀ fid lid, profile.locationIds fid = some lid →
    ∃ k, lid = k + 1 ∧ targets[k]? = some fid
  placed : ∀ fid ∈ targets, ∃ k, fid = k + 1 ∧ k < names.length

/-- A location points to a function, and this to a string. -/
def Resolves (strings : List Text) (names targets : List ℕ) (lid : ℕ) (name : Text) : Prop :=
  ∃ j k index, lid = j + 1 ∧ targets[j]? = some (k + 1) ∧ names[k]? = some index ∧
    strings[index]? = some name

/-- Tables that have grown. -/
structure Grown (profile profile' : Profile) (names names' targets targets' : List ℕ) : Prop where
  strings : profile.strings <+: profile'.strings
  names : names <+: names'
  targets : targets <+: targets'
  samples : profile'.samples = profile.samples

section Tables

variable {profile profile' profile'' : Profile} {names names' names'' : List ℕ}
  {targets targets' targets'' : List ℕ}

/-- What a list has at a place, its extensions have there. -/
theorem getElem?_of_extends {α : Type} {l l' : List α} (h : l <+: l') {i : ℕ} {a : α}
    (hat : l[i]? = some a) : l'[i]? = some a := by
  obtain ⟨others, rfl⟩ := h
  rw [List.getElem?_append_left (List.getElem?_eq_some_iff.mp hat).1]
  exact hat

/-- A profile has grown by nothing. -/
theorem Grown.refl (profile : Profile) (names targets : List ℕ) :
    Grown profile profile names names targets targets :=
  ⟨List.prefix_refl _, List.prefix_refl _, List.prefix_refl _, rfl⟩

/-- A profile that has grown twice has grown. -/
theorem Grown.trans (h : Grown profile profile' names names' targets targets')
    (h' : Grown profile' profile'' names' names'' targets' targets'') :
    Grown profile profile'' names names'' targets targets'' where
  strings := h.strings.trans h'.strings
  names := h.names.trans h'.names
  targets := h.targets.trans h'.targets
  samples := h'.samples.trans h.samples

/-- What was resolved stays resolved. -/
theorem Resolves.grow {lid : ℕ} {name : Text}
    (h : Resolves profile.strings names targets lid name)
    (hgrown : Grown profile profile' names names' targets targets') :
    Resolves profile'.strings names' targets' lid name := by
  obtain ⟨j, k, index, hlid, htarget, hname, hstring⟩ := h
  exact ⟨j, k, index, hlid, getElem?_of_extends hgrown.targets htarget,
    getElem?_of_extends hgrown.names hname, getElem?_of_extends hgrown.strings hstring⟩

/-- The empty profile is sound. -/
theorem sound_empty : Profile.Sound {} [] [] where
  empty := rfl
  strings text index h := by
    simp only [Function.update_apply] at h
    split at h
    · next htext =>
      obtain rfl := Option.some.inj h
      rw [htext]
      rfl
    · cases h
  functions := rfl
  functionIds _ _ h := nomatch h
  named _ h := nomatch h
  locations := rfl
  locationIds _ _ h := nomatch h
  placed _ h := nomatch h

/-- A text is found in the table or comes into it. -/
theorem string_spec (h : profile.Sound names targets) (text : Text) :
    ((profile.string text).2).Sound names targets ∧
      Grown profile (profile.string text).2 names names targets targets ∧
      ((profile.string text).2).strings[(profile.string text).1]? = some text := by
  rw [Profile.string]
  cases hfound : profile.stringIndex text with
  | some found =>
    exact ⟨h, Grown.refl profile names targets, h.strings text found hfound⟩
  | none =>
    have hextends : profile.strings <+: profile.strings ++ [text] := List.prefix_append _ _
    refine ⟨{ h with
      empty := getElem?_of_extends hextends h.empty
      strings := ?_
      functionIds := ?_
      named := ?_ }, ⟨hextends, List.prefix_refl _, List.prefix_refl _, rfl⟩, ?_⟩
    · intro other index hindex
      simp only [Function.update_apply] at hindex
      split at hindex
      · next hother =>
        obtain rfl := Option.some.inj hindex
        simp [hother]
      · exact getElem?_of_extends hextends (h.strings other index hindex)
    · intro name fid hfid
      obtain ⟨k, index, hk, hname, hstring⟩ := h.functionIds name fid hfid
      exact ⟨k, index, hk, hname, getElem?_of_extends hextends hstring⟩
    · intro index hindex
      rw [List.length_append]
      have := h.named index hindex
      omega
    · simp

/-- A name has a function, and this has its name. -/
theorem function_spec (h : profile.Sound names targets) (name : Text) :
    ∃ names' k index, ((profile.function name).2).Sound names' targets ∧
      Grown profile (profile.function name).2 names names' targets targets ∧
      (profile.function name).1 = k + 1 ∧ names'[k]? = some index ∧
      ((profile.function name).2).strings[index]? = some name := by
  rw [Profile.function]
  cases hfound : profile.functionIds name with
  | some found =>
    obtain ⟨k, index, hk, hname, hstring⟩ := h.functionIds name found hfound
    exact ⟨names, k, index, h, Grown.refl profile names targets, hk, hname, hstring⟩
  | none =>
    obtain ⟨hsound, hgrown, hstring⟩ := string_spec h name
    have hlength : profile.functions.length = names.length := by
      rw [h.functions, List.length_mapIdx]
    have hextends : names <+: names ++ [(profile.string name).1] := List.prefix_append _ _
    dsimp only
    refine ⟨names ++ [(profile.string name).1], names.length, (profile.string name).1,
      { hsound with
        functions := ?_
        functionIds := ?_
        named := ?_
        placed := ?_ },
      ⟨hgrown.strings, hextends, List.prefix_refl _, hgrown.samples⟩, by rw [hlength], ?_, hstring⟩
    · rw [hsound.functions, hlength, List.mapIdx_concat, encode_functionFields]
    · intro other fid hfid
      simp only [Function.update_apply] at hfid
      split at hfid
      · next hother =>
        obtain rfl := Option.some.inj hfid
        refine ⟨names.length, (profile.string name).1, by rw [hlength], by simp, ?_⟩
        rw [hother]
        exact hstring
      · obtain ⟨k, index, hk, hname, hat⟩ := hsound.functionIds other fid hfid
        exact ⟨k, index, hk, getElem?_of_extends hextends hname, hat⟩
    · intro index hindex
      rcases List.mem_append.mp hindex with hindex | hindex
      · exact hsound.named index hindex
      · rw [List.mem_singleton.mp hindex]
        exact (List.getElem?_eq_some_iff.mp hstring).1
    · intro fid hfid
      obtain ⟨k, hk, hlt⟩ := hsound.placed fid hfid
      exact ⟨k, hk, by rw [List.length_append]; omega⟩
    · simp

/-- A function has a location. -/
theorem locationFor_spec (h : profile.Sound names targets) {k : ℕ} (hk : k < names.length) :
    ∃ targets' j, ((profile.locationFor (k + 1)).2).Sound names targets' ∧
      Grown profile (profile.locationFor (k + 1)).2 names names targets targets' ∧
      (profile.locationFor (k + 1)).1 = j + 1 ∧ targets'[j]? = some (k + 1) := by
  rw [Profile.locationFor]
  cases hfound : profile.locationIds (k + 1) with
  | some found =>
    obtain ⟨j, hj, htarget⟩ := h.locationIds (k + 1) found hfound
    exact ⟨targets, j, h, Grown.refl profile names targets, hj, htarget⟩
  | none =>
    have hlength : profile.locations.length = targets.length := by
      rw [h.locations, List.length_mapIdx]
    have hextends : targets <+: targets ++ [k + 1] := List.prefix_append _ _
    refine ⟨targets ++ [k + 1], targets.length,
      { h with
        locations := ?_
        locationIds := ?_
        placed := ?_ },
      ⟨List.prefix_refl _, List.prefix_refl _, hextends, rfl⟩, by rw [hlength], by simp⟩
    · dsimp only
      rw [h.locations, List.length_mapIdx, List.mapIdx_concat, encode_locationFields]
    · intro fid lid hlid
      simp only [Function.update_apply] at hlid
      split at hlid
      · next hfid =>
        obtain rfl := Option.some.inj hlid
        exact ⟨targets.length, by rw [hlength], by simp [hfid]⟩
      · obtain ⟨j, hj, htarget⟩ := h.locationIds fid lid hlid
        exact ⟨j, hj, getElem?_of_extends hextends htarget⟩
    · intro fid hfid
      rcases List.mem_append.mp hfid with hfid | hfid
      · exact h.placed fid hfid
      · exact ⟨k, List.mem_singleton.mp hfid, hk⟩

/-- The locations of names resolve to the names. -/
theorem locate_spec (h : profile.Sound names targets) (stack : List Text) :
    ∃ names' targets', ((profile.locate stack).2).Sound names' targets' ∧
      Grown profile (profile.locate stack).2 names names' targets targets' ∧
      List.Forall₂ (Resolves ((profile.locate stack).2).strings names' targets')
        (profile.locate stack).1 stack := by
  induction stack generalizing profile names targets with
  | nil => exact ⟨names, targets, h, Grown.refl profile names targets, List.Forall₂.nil⟩
  | cons name rest ih =>
    obtain ⟨names₁, k, index, hsound₁, hgrown₁, hfid, hname, hstring⟩ := function_spec h name
    obtain ⟨targets₂, j, hsound₂, hgrown₂, hlid, htarget⟩ :=
      locationFor_spec hsound₁ (List.getElem?_eq_some_iff.mp hname).1
    obtain ⟨names₃, targets₃, hsound₃, hgrown₃, hrest⟩ := ih hsound₂
    have hresolves : Resolves ((profile.function name).2.locationFor (k + 1)).2.strings names₁
        targets₂ (j + 1) name :=
      ⟨j, k, index, rfl, htarget, hname, getElem?_of_extends hgrown₂.strings hstring⟩
    rw [Profile.locate]
    simp only [hfid, hlid]
    exact ⟨names₃, targets₃, hsound₃, (hgrown₁.trans hgrown₂).trans hgrown₃,
      List.Forall₂.cons (hresolves.grow hgrown₃) hrest⟩

end Tables

/-! ## Samples -/

/-- What a profile holds of samples: locations that resolve to the stacks, from the leaf on,
and the values. -/
structure Profile.Holds (profile : Profile) (names targets : List ℕ)
    (recorded : List (List ℕ × List ℕ)) (samples : List (List Text × List ℕ)) : Prop where
  sound : profile.Sound names targets
  written : profile.samples = recorded.map fun sample => encode (sampleFields sample.1 sample.2)
  resolved : List.Forall₂ (fun sample given =>
    List.Forall₂ (Resolves profile.strings names targets) sample.1 given.1.reverse ∧
      sample.2 = given.2) recorded samples

section Samples

variable {profile profile' : Profile} {names names' targets targets' : List ℕ}
  {recorded : List (List ℕ × List ℕ)} {samples : List (List Text × List ℕ)}

/-- Samples stay what they are while the tables grow. -/
theorem Profile.Holds.grow (h : profile.Holds names targets recorded samples)
    (hsound : profile'.Sound names' targets')
    (hgrown : Grown profile profile' names names' targets targets') :
    profile'.Holds names' targets' recorded samples where
  sound := hsound
  written := hgrown.samples.trans h.written
  resolved := h.resolved.imp fun _ _ hsample =>
    ⟨hsample.1.imp fun _ _ hresolves => hresolves.grow hgrown, hsample.2⟩

/-- Natural values are written as numbers. -/
theorem encodeValues_natural (values : List ℕ) :
    Profile.encodeValues (values.map fun value : ℕ => (value : ℤ)) =
      .ok (encode (values.map fun value => ⟨2, .number value⟩)) := by
  induction values with
  | nil => rfl
  | cons value rest ih =>
    rw [List.map_cons, Profile.encodeValues, if_neg (by omega), ih]
    simp [Field.encode, bind, Except.bind, pure, Except.pure]

/-- A sample with natural values is added. -/
theorem addSample_spec (h : profile.Holds names targets recorded samples) (stack : List Text)
    (values : List ℕ) :
    ∃ profile' names' targets' recorded',
      profile.addSample stack (values.map fun value : ℕ => (value : ℤ)) = .ok profile' ∧
      profile'.Holds names' targets' recorded' (samples ++ [(stack, values)]) := by
  obtain ⟨names', targets', hsound, hgrown, hresolves⟩ := locate_spec h.sound stack.reverse
  have hids : ∀ ids : List ℕ, encode (ids.flatMap (numberField 1)) =
      ids.flatMap (encodeVarintField 1) := by
    intro ids
    rw [encode_flatMap]
    exact congrArg (fun f => ids.flatMap f) (funext fun id => encode_numberField 1 id)
  have hgrown' := h.grow hsound hgrown
  let located := (profile.locate stack.reverse).2
  let body := (profile.locate stack.reverse).1.flatMap (encodeVarintField 1) ++
    encode (values.map fun value => ⟨2, .number value⟩)
  refine ⟨{ located with samples := located.samples ++ [body] }, names', targets',
    recorded ++ [((profile.locate stack.reverse).1, values)], ?_, ?_⟩
  · rw [Profile.addSample, encodeValues_natural]
    rfl
  · exact {
      sound := { hsound with }
      written := by
        dsimp only [located, body]
        rw [hgrown'.written, List.map_append, List.map_singleton, sampleFields, encode_append, hids]
      resolved := List.rel_append hgrown'.resolved
        (List.Forall₂.cons ⟨hresolves, rfl⟩ List.Forall₂.nil) }

/-- Samples that are added one after the other are held. -/
theorem foldlM_addSample (h : profile.Holds names targets recorded samples)
    (others : List (List Text × List ℕ)) :
    ∃ profile' names' targets' recorded',
      (others.map fun sample => (sample.1, sample.2.map fun value : ℕ => (value : ℤ))).foldlM
        (fun profile sample => Profile.addSample profile sample.1 sample.2) profile =
          .ok profile' ∧
      profile'.Holds names' targets' recorded' (samples ++ others) := by
  induction others generalizing profile names targets recorded samples with
  | nil => exact ⟨profile, names, targets, recorded, rfl, by rwa [List.append_nil]⟩
  | cons sample rest ih =>
    obtain ⟨profile₁, names₁, targets₁, recorded₁, hadded, hholds⟩ :=
      addSample_spec h sample.1 sample.2
    obtain ⟨profile', names', targets', recorded', hrest, hholds'⟩ := ih hholds
    refine ⟨profile', names', targets', recorded', ?_, by simpa using hholds'⟩
    rw [List.map_cons, List.foldlM_cons, hadded]
    exact hrest

/-- Comments that are not empty are strings of the table, and not its first one. -/
theorem internAll_spec (h : profile.Sound names targets) (texts : List Text) :
    ((profile.internAll texts).2).Sound names targets ∧
      Grown profile (profile.internAll texts).2 names names targets targets ∧
      List.Forall₂ (fun index text => ((profile.internAll texts).2).strings[index]? = some text)
        (profile.internAll texts).1 texts := by
  induction texts generalizing profile with
  | nil => exact ⟨h, Grown.refl profile names targets, List.Forall₂.nil⟩
  | cons text rest ih =>
    obtain ⟨hsound, hgrown, hstring⟩ := string_spec h text
    obtain ⟨hsound', hgrown', hrest⟩ := ih hsound
    rw [Profile.internAll]
    exact ⟨hsound', hgrown.trans hgrown',
      List.Forall₂.cons (getElem?_of_extends hgrown'.strings hstring) hrest⟩

/-- The messages of sample types point to their strings. -/
theorem typeMessages_spec (h : profile.Sound names targets) (types : List (Text × Text)) :
    ((profile.typeMessages types).2).Sound names targets ∧
      Grown profile (profile.typeMessages types).2 names names targets targets ∧
      ∃ pairs : List (ℕ × ℕ),
        (profile.typeMessages types).1 = pairs.map (fun pair => encode (typeFields pair.1 pair.2)) ∧
        List.Forall₂ (fun pair type =>
          ((profile.typeMessages types).2).strings[pair.1]? = some type.1 ∧
          ((profile.typeMessages types).2).strings[pair.2]? = some type.2) pairs types := by
  induction types generalizing profile with
  | nil => exact ⟨h, Grown.refl profile names targets, [], rfl, List.Forall₂.nil⟩
  | cons type rest ih =>
    obtain ⟨typeName, unit⟩ := type
    obtain ⟨hsound, hgrown, hname⟩ := string_spec h typeName
    obtain ⟨hsound', hgrown', hunit⟩ := string_spec hsound unit
    obtain ⟨hsound'', hgrown'', pairs, hmessages, hrest⟩ := ih hsound'
    rw [Profile.typeMessages]
    refine ⟨hsound'', (hgrown.trans hgrown').trans hgrown'',
      ((profile.string typeName).1, ((profile.string typeName).2.string unit).1) :: pairs, ?_,
      List.Forall₂.cons ⟨?_, getElem?_of_extends hgrown''.strings hunit⟩ hrest⟩
    · rw [List.map_cons, encode_typeFields, ← hmessages]
    · exact getElem?_of_extends (hgrown'.trans hgrown'').strings hname

end Samples

/-! ## The whole profile -/

/-- Numbered entries of a table. -/
def numbered (entries : List ℕ) : List (ℕ × ℕ) :=
  entries.mapIdx fun k entry => (k + 1, entry)

/-- What is read of a profile. -/
def Profile.fields (profile : Profile) (pairs : List (ℕ × ℕ)) (recorded : List (List ℕ × List ℕ))
    (names targets : List ℕ) (time duration : ℕ) (comments : List ℕ) : List Field :=
  (pairs.map fun pair => ⟨1, .chunk (encode (typeFields pair.1 pair.2))⟩) ++
    (recorded.map fun sample => ⟨2, .chunk (encode (sampleFields sample.1 sample.2))⟩) ++
    ((numbered targets).map fun entry => ⟨4, .chunk (encode (locationFields entry.1 entry.2))⟩) ++
    ((numbered names).map fun entry => ⟨5, .chunk (encode (functionFields entry.1 entry.2))⟩) ++
    (profile.strings.map fun text => ⟨6, .chunk (Utf8.encode text)⟩) ++
    numberField 9 time ++ numberField 10 duration ++ comments.flatMap (numberField 13)

section Whole

variable {σ ε α β : Type}

/-- A loop that collects the values of its items. -/
theorem foldlM_collect (f : σ → α → Except ε σ) (put : List β → σ) (value : α → β)
    (items : List α)
    (h : ∀ done item rest, items = done ++ item :: rest →
      f (put (done.map value)) item = .ok (put (done.map value ++ [value item]))) :
    items.foldlM f (put []) = .ok (put (items.map value)) := by
  have hall : ∀ done rest, items = done ++ rest →
      rest.foldlM f (put (done.map value)) = .ok (put (items.map value)) := by
    intro done rest hsplit
    induction rest generalizing done with
    | nil =>
      rw [hsplit, List.append_nil]
      rfl
    | cons item rest ih =>
      rw [List.foldlM_cons, h done item rest hsplit]
      have hnext := ih (done ++ [item]) (by simp [hsplit])
      rw [List.map_append, List.map_singleton] at hnext
      exact hnext
  exact hall [] items rfl

/-- A key that is new is set at the end. -/
theorem setItem_numbered {entries : List ℕ} {done rest : List (ℕ × ℕ)} {entry : ℕ × ℕ}
    (h : numbered entries = done ++ entry :: rest) :
    setItem done entry.1 entry.2 = done ++ [entry] := by
  have hkeys : ∀ i item, (numbered entries)[i]? = some item → item.1 = i + 1 := by
    intro i item hitem
    rw [numbered, List.getElem?_mapIdx] at hitem
    obtain ⟨value, _, rfl⟩ := Option.map_eq_some_iff.mp hitem
    rfl
  have hentry : entry.1 = done.length + 1 := hkeys done.length entry (by rw [h]; simp)
  have hnew : done.any (fun item => item.1 = entry.1) = false := by
    rw [List.any_eq_false]
    intro item hitem
    obtain ⟨i, hi, hat⟩ := List.getElem_of_mem hitem
    have hkey : item.1 = i + 1 := hkeys i item (by
      rw [h, List.getElem?_append_left hi, List.getElem?_eq_getElem hi, hat])
    have hne : item.1 ≠ entry.1 := by omega
    simpa using hne
  rw [setItem, hnew]
  rfl

end Whole

/-- The numbers of a profile can be read. -/
structure Readables (profile : Profile) (pairs : List (ℕ × ℕ))
    (recorded : List (List ℕ × List ℕ)) (names targets : List ℕ) (time duration : ℕ)
    (comments : List ℕ) : Prop where
  fits : ∀ field ∈ profile.fields pairs recorded names targets time duration comments, field.Fits
  pairs : ∀ pair ∈ pairs, Readable pair.1 ∧ Readable pair.2
  ids : ∀ sample ∈ recorded, ∀ id ∈ sample.1, id ≠ 0 ∧ Readable id
  values : ∀ sample ∈ recorded, ∀ value ∈ sample.2, Readable value
  locations : ∀ entry ∈ numbered targets, Readable entry.1 ∧ Readable entry.2 ∧
    Readable (encode (numberField 1 entry.2)).length
  functions : ∀ entry ∈ numbered names, Readable entry.1 ∧ Readable entry.2
  comments : ∀ index ∈ comments, index ≠ 0

section Reading

variable {profile : Profile} {pairs : List (ℕ × ℕ)} {recorded : List (List ℕ × List ℕ)}
  {names targets : List ℕ} {time duration : ℕ} {comments : List ℕ}

/-- Sample types are collected. -/
theorem read_types (hpairs : ∀ pair ∈ pairs, Readable pair.1 ∧ Readable pair.2)
    (state : Decoding) :
    (pairs.map fun pair => ⟨1, .chunk (encode (typeFields pair.1 pair.2))⟩).foldlM
      profileHandler.field { state with sampleTypes := [] } =
      .ok { state with sampleTypes := pairs } := by
  rw [List.foldlM_map]
  have hcollect := foldlM_collect
    (fun state pair => profileHandler.field state ⟨1, .chunk (encode (typeFields pair.1 pair.2))⟩)
    (fun done => { state with sampleTypes := done }) (fun pair => pair) pairs (by
      intro done pair rest hsplit
      obtain ⟨htype, hunit⟩ := hpairs pair (by rw [hsplit]; simp)
      simp only [Handler.field, profileHandler, decodeValueType_encode htype hunit]
      rfl)
  rw [List.map_id'] at hcollect
  exact hcollect

/-- Samples are collected. -/
theorem read_samples (hids : ∀ sample ∈ recorded, ∀ id ∈ sample.1, id ≠ 0 ∧ Readable id)
    (hvalues : ∀ sample ∈ recorded, ∀ value ∈ sample.2, Readable value) (state : Decoding) :
    (recorded.map fun sample => ⟨2, .chunk (encode (sampleFields sample.1 sample.2))⟩).foldlM
      profileHandler.field { state with samples := [] } =
      .ok { state with samples := recorded.map fun sample => ⟨sample.1, sample.2⟩ } := by
  rw [List.foldlM_map]
  refine foldlM_collect
    (fun state sample => profileHandler.field state
      ⟨2, .chunk (encode (sampleFields sample.1 sample.2))⟩)
    (fun done => { state with samples := done }) (fun sample => ⟨sample.1, sample.2⟩) recorded ?_
  intro done sample rest hsplit
  have hmem : sample ∈ recorded := by
    rw [hsplit]
    simp
  simp only [Handler.field, profileHandler,
    decodeSample_encode (hids sample hmem) (hvalues sample hmem)]
  rfl

/-- Locations are collected. -/
theorem read_locations (htargets : ∀ entry ∈ numbered targets, Readable entry.1 ∧
    Readable entry.2 ∧ Readable (encode (numberField 1 entry.2)).length) (state : Decoding) :
    ((numbered targets).map fun entry =>
      ⟨4, .chunk (encode (locationFields entry.1 entry.2))⟩).foldlM
      profileHandler.field { state with locations := [] } =
      .ok { state with locations := numbered targets } := by
  rw [List.foldlM_map]
  have hcollect := foldlM_collect
    (fun state entry => profileHandler.field state
      ⟨4, .chunk (encode (locationFields entry.1 entry.2))⟩)
    (fun done => { state with locations := done }) (fun entry => entry) (numbered targets) (by
      intro done entry rest hsplit
      obtain ⟨hlid, hfid, hline⟩ := htargets entry (by rw [hsplit]; simp)
      rw [List.map_id', ← setItem_numbered hsplit]
      simp only [Handler.field, profileHandler, decodeLocation_encode hlid hfid hline]
      rfl)
  rw [List.map_id'] at hcollect
  exact hcollect

/-- Functions are collected. -/
theorem read_functions (hnames : ∀ entry ∈ numbered names, Readable entry.1 ∧ Readable entry.2)
    (state : Decoding) :
    ((numbered names).map fun entry =>
      ⟨5, .chunk (encode (functionFields entry.1 entry.2))⟩).foldlM
      profileHandler.field { state with functions := [] } =
      .ok { state with functions := numbered names } := by
  rw [List.foldlM_map]
  have hcollect := foldlM_collect
    (fun state entry => profileHandler.field state
      ⟨5, .chunk (encode (functionFields entry.1 entry.2))⟩)
    (fun done => { state with functions := done }) (fun entry => entry) (numbered names) (by
      intro done entry rest hsplit
      obtain ⟨hfid, hname⟩ := hnames entry (by rw [hsplit]; simp)
      rw [List.map_id', ← setItem_numbered hsplit]
      simp only [Handler.field, profileHandler, decodeFunction_encode hfid hname]
      rfl)
  rw [List.map_id'] at hcollect
  exact hcollect

/-- Strings are collected. -/
theorem read_strings (strings : List Text) (state : Decoding) :
    (strings.map fun text => ⟨6, .chunk (Utf8.encode text)⟩).foldlM
      profileHandler.field { state with strings := [] } =
      .ok { state with strings := strings } := by
  rw [List.foldlM_map]
  have hcollect := foldlM_collect
    (fun state text => profileHandler.field state ⟨6, .chunk (Utf8.encode text)⟩)
    (fun done => { state with strings := done }) (fun text => text) strings (by
      intro done text rest _
      simp only [Handler.field, profileHandler, Utf8.decode_encode]
      rfl)
  rw [List.map_id'] at hcollect
  exact hcollect

/-- Comments are collected. -/
theorem read_comments (hcomments : ∀ index ∈ comments, index ≠ 0) (state : Decoding) :
    (comments.flatMap (numberField 13)).foldlM profileHandler.field { state with comments := [] } =
      .ok { state with comments := comments } := by
  have hfields : comments.flatMap (numberField 13) =
      comments.map fun index => ⟨13, .number index⟩ := by
    rw [← List.flatMap_singleton' (comments.map _), List.flatMap_map]
    refine List.flatMap_congr fun index hindex => ?_
    rw [numberField, if_neg (hcomments index hindex)]
  rw [hfields, List.foldlM_map]
  have hcollect := foldlM_collect
    (fun state index => profileHandler.field state ⟨13, .number index⟩)
    (fun done => { state with comments := done }) (fun index => index) comments (by
      intro done index rest _
      simp [Handler.field, profileHandler])
  rw [List.map_id'] at hcollect
  exact hcollect

/-- The fields of a profile are read into its tables. -/
theorem decode_fields
    (h : Readables profile pairs recorded names targets time duration comments) :
    profileHandler.decode
      (encode (profile.fields pairs recorded names targets time duration comments)) {} =
      .ok {
        sampleTypes := pairs
        samples := recorded.map fun sample => ⟨sample.1, sample.2⟩
        locations := numbered targets
        functions := numbered names
        strings := profile.strings
        comments := comments
        timeNanos := time
        durationNanos := duration } := by
  rw [Handler.decode_encode _ h.fits, Profile.fields]
  simp only [List.foldlM_append]
  have htypes := read_types h.pairs {}
  have hsamples := read_samples h.ids h.values { sampleTypes := pairs }
  have hlocations := read_locations h.locations {
    sampleTypes := pairs, samples := recorded.map fun sample => ⟨sample.1, sample.2⟩ }
  have hfunctions := read_functions h.functions {
    sampleTypes := pairs, samples := recorded.map fun sample => ⟨sample.1, sample.2⟩
    locations := numbered targets }
  have hstrings := read_strings profile.strings {
    sampleTypes := pairs, samples := recorded.map fun sample => ⟨sample.1, sample.2⟩
    locations := numbered targets, functions := numbered names }
  have hcomments := read_comments h.comments {
    sampleTypes := pairs, samples := recorded.map fun sample => ⟨sample.1, sample.2⟩
    locations := numbered targets, functions := numbered names, strings := profile.strings
    timeNanos := time, durationNanos := duration }
  dsimp only at htypes hsamples hlocations hfunctions hstrings hcomments
  simp only [bind, Except.bind, htypes, hsamples, hlocations, hfunctions, hstrings,
    foldlM_numberField]
  rw [← hcomments]
  by_cases htime : time = 0 <;> by_cases hduration : duration = 0 <;>
    simp [profileHandler, htime, hduration]

end Reading

/-! ## Resolving -/

section Resolving

variable {β : Type}

/-- A numbered entry is found under its number. -/
theorem lookup_numbered (f : ℕ → β) (entries : List ℕ) (k : ℕ) :
    List.lookup (k + 1) ((numbered entries).map fun entry => (entry.1, f entry.2)) =
      (entries[k]?).map f := by
  have hfrom : ∀ offset, List.lookup (k + offset)
      ((entries.mapIdx fun i entry => (i + offset, entry)).map fun entry => (entry.1, f entry.2)) =
        (entries[k]?).map f := by
    induction entries generalizing k with
    | nil => intro offset; rfl
    | cons entry rest ih =>
      intro offset
      rw [List.mapIdx_cons, List.map_cons, List.lookup_cons]
      cases k with
      | zero => simp
      | succ k =>
        have hne : (k + 1 + offset == 0 + offset) = false := by
          simp
        rw [hne]
        dsimp only
        have hrest := ih k (offset + 1)
        simpa [Nat.add_assoc, Nat.add_comm 1] using hrest
  exact hfrom 1

/-- A string is found at its index. -/
theorem stringAt_ok {strings : List Text} {index : ℕ} {text : Text}
    (h : strings[index]? = some text) : stringAt strings index = .ok text := by
  rw [stringAt, h]

/-- With indices that the string table has the profile is returned. -/
theorem finish_ok {state : Decoding} {sampleTypes : List (Text × Text)} {comments : List Text}
    (hempty : state.strings[0]? = some [])
    (htypes : List.Forall₂ (fun pair type => state.strings[pair.1]? = some type.1 ∧
      state.strings[pair.2]? = some type.2) state.sampleTypes sampleTypes)
    (hnames : ∀ item ∈ state.functions, item.2 < state.strings.length)
    (hcomments : List.Forall₂ (fun index text => state.strings[index]? = some text)
      state.comments comments) :
    state.finish = .ok {
      sampleTypes, samples := state.samples, locations := state.locations
      functions := state.functions.map fun item => (item.1, state.strings.getD item.2 [])
      strings := state.strings, comments
      timeNanos := state.timeNanos, durationNanos := state.durationNanos } := by
  have hread : (state.sampleTypes.mapM fun pair => do
      return (← stringAt state.strings pair.1, ← stringAt state.strings pair.2)) =
      Except.ok sampleTypes := by
    refine mapM_ok (htypes.imp fun pair type htype => ?_)
    rw [stringAt_ok htype.1, stringAt_ok htype.2]
    rfl
  have hfunctions : (state.functions.mapM fun item => do
      return (item.1, ← stringAt state.strings item.2)) =
      Except.ok (state.functions.map fun item => (item.1, state.strings.getD item.2 [])) := by
    refine mapM_ok (List.forall₂_map_right_iff.mpr (List.forall₂_same.mpr fun item hitem => ?_))
    have hat := List.getElem?_eq_getElem (hnames item hitem)
    rw [stringAt_ok hat, List.getD_eq_getElem?_getD, hat]
    rfl
  have hindices : state.comments.mapM (stringAt state.strings) = .ok comments :=
    mapM_ok (hcomments.imp fun index text htext => stringAt_ok htext)
  rw [Decoding.finish, if_neg (not_not.mpr hempty), hread, hfunctions, hindices]
  rfl

/-- Locations resolve to names through the dictionaries that are returned. -/
theorem stack_ok {decoded : DecodedProfile} {names targets ids : List ℕ} {stack : List Text}
    (hlocations : decoded.locations = numbered targets)
    (hfunctions : decoded.functions =
      (numbered names).map fun item => (item.1, decoded.strings.getD item.2 []))
    (h : List.Forall₂ (Resolves decoded.strings names targets) ids stack) :
    decoded.stack ids = some stack := by
  refine mapM_some (h.imp fun lid name hresolves => ?_)
  obtain ⟨j, k, index, rfl, htarget, hname, hstring⟩ := hresolves
  have hlocation := lookup_numbered (fun fid => fid) targets j
  rw [List.map_id', htarget] at hlocation
  rw [hlocations, hlocation, hfunctions]
  simp only [Option.map_some, Option.bind_eq_bind, Option.bind_some]
  rw [lookup_numbered (fun index => decoded.strings.getD index []), hname, Option.map_some,
    List.getD_eq_getElem?_getD, hstring]
  rfl

end Resolving

/-! ## The round trip -/

/-- `sys.maxsize`. No `bytes` object is longer. -/
def maxSize : ℕ := 2 ^ 63 - 1

section RoundTrip

variable {profile : Profile} {pairs : List (ℕ × ℕ)} {recorded : List (List ℕ × List ℕ)}
  {names targets : List ℕ} {time duration : ℕ} {comments : List ℕ}

/-- Numbered entries are numbered from 1. -/
theorem map_numbered {β : Type} (f : ℕ → ℕ → β) (entries : List ℕ) :
    (numbered entries).map (fun entry => f entry.1 entry.2) =
      entries.mapIdx fun k entry => f (k + 1) entry := by
  refine List.ext_getElem? fun i => ?_
  rw [numbered, List.getElem?_map, List.getElem?_mapIdx, List.getElem?_mapIdx, Option.map_map]
  rfl

/-- What `serialize` joins are the fields of the profile. -/
theorem encode_fields (hsound : profile.Sound names targets)
    (hwritten : profile.samples =
      recorded.map fun sample => encode (sampleFields sample.1 sample.2)) :
    encode (profile.fields pairs recorded names targets time duration comments) =
      (pairs.map fun pair => encode (typeFields pair.1 pair.2)).flatMap (encodeMessageField 1) ++
      profile.samples.flatMap (encodeMessageField 2) ++
      profile.locations.flatMap (encodeMessageField 4) ++
      profile.functions.flatMap (encodeMessageField 5) ++
      profile.strings.flatMap (encodeStringField 6) ++ encodeVarintField 9 time ++
      encodeVarintField 10 duration ++ comments.flatMap (encodeVarintField 13) := by
  have hcomments : encode (comments.flatMap (numberField 13)) =
      comments.flatMap (encodeVarintField 13) := by
    rw [encode_flatMap]
    exact congrArg (fun f => comments.flatMap f) (funext fun index => encode_numberField 13 index)
  rw [hwritten, hsound.locations, hsound.functions,
    ← map_numbered fun lid fid => encode (locationFields lid fid),
    ← map_numbered fun fid name => encode (functionFields fid name), Profile.fields]
  simp only [encode_append, encode_chunks, encode_numberField, hcomments, List.flatMap_map]
  rfl

/-- In a profile that is a `bytes` object all numbers can be read. -/
theorem readables (hsound : profile.Sound names targets)
    (hpairs : ∀ pair ∈ pairs, pair.1 < profile.strings.length ∧ pair.2 < profile.strings.length)
    (hids : ∀ sample ∈ recorded, ∀ id ∈ sample.1, ∃ j, id = j + 1 ∧ j < targets.length)
    (hvalues : ∀ sample ∈ recorded, ∀ value ∈ sample.2, Readable value)
    (htime : Readable time) (hduration : Readable duration)
    (hcomments : ∀ index ∈ comments, index ≠ 0 ∧ index < profile.strings.length)
    (hsize : (encode (profile.fields pairs recorded names targets time duration
      comments)).length ≤ maxSize) :
    Readables profile pairs recorded names targets time duration comments := by
  have hmax : maxSize < 2 ^ 77 := by
    rw [maxSize]
    omega
  have hcount := (length_le_encode _).trans hsize
  have hchunk : ∀ number bytes, ⟨number, .chunk bytes⟩ ∈
      profile.fields pairs recorded names targets time duration comments →
      bytes.length ≤ maxSize := fun number bytes hmem => (chunk_length_le hmem).trans hsize
  have hlengths : profile.strings.length ≤ maxSize ∧ targets.length ≤ maxSize ∧
      names.length ≤ maxSize := by
    simp only [Profile.fields, List.length_append, List.length_map, numbered,
      List.length_mapIdx] at hcount
    omega
  obtain ⟨hstrings, htargets, hnames⟩ := hlengths
  have hnumbered : ∀ {entries : List ℕ} {entry : ℕ × ℕ}, entry ∈ numbered entries →
      entry.1 ≤ entries.length ∧ entry.2 ∈ entries := by
    intro entries entry hentry
    obtain ⟨i, hi, rfl⟩ := List.exists_of_mem_mapIdx hentry
    exact ⟨hi, List.getElem_mem hi⟩
  have hfunctions : ∀ entry ∈ numbered names, Readable entry.1 ∧ Readable entry.2 := by
    intro entry hentry
    obtain ⟨hkey, hname⟩ := hnumbered hentry
    have := hsound.named entry.2 hname
    constructor <;> rw [Readable] <;> omega
  have hlocations : ∀ entry ∈ numbered targets, Readable entry.1 ∧ Readable entry.2 ∧
      Readable (encode (numberField 1 entry.2)).length := by
    intro entry hentry
    obtain ⟨hkey, htarget⟩ := hnumbered hentry
    obtain ⟨k, hk, hlt⟩ := hsound.placed entry.2 htarget
    have hbody := hchunk 4 (encode (locationFields entry.1 entry.2)) (by
      simp only [Profile.fields, List.mem_append, List.mem_map]
      exact Or.inl (Or.inl (Or.inl (Or.inl (Or.inl (Or.inr ⟨entry, hentry, rfl⟩))))))
    have hmem : ⟨4, .chunk (encode (numberField 1 entry.2))⟩ ∈ locationFields entry.1 entry.2 :=
      List.mem_append_right _ (List.mem_singleton_self _)
    have hline := chunk_length_le hmem
    refine ⟨?_, ?_, ?_⟩ <;> rw [Readable] <;> omega
  refine {
    fits := ?_
    pairs := fun pair hpair => ?_
    ids := fun sample hsample id hid => ?_
    values := hvalues
    locations := hlocations
    functions := hfunctions
    comments := fun index hindex => (hcomments index hindex).1 }
  · intro field hfield
    have hmem := hfield
    simp only [Profile.fields, List.mem_append, List.mem_map, List.mem_flatMap] at hfield
    rcases hfield with ((((((⟨pair, _, rfl⟩ | ⟨sample, _, rfl⟩) | ⟨entry, _, rfl⟩) |
      ⟨entry, _, rfl⟩) | ⟨text, _, rfl⟩) | hfield) | hfield) | ⟨index, hindex, hfield⟩
    · exact ⟨show 1 < 2 ^ 74 by omega, (hchunk 1 _ hmem).trans_lt hmax⟩
    · exact ⟨show 2 < 2 ^ 74 by omega, (hchunk 2 _ hmem).trans_lt hmax⟩
    · exact ⟨show 4 < 2 ^ 74 by omega, (hchunk 4 _ hmem).trans_lt hmax⟩
    · exact ⟨show 5 < 2 ^ 74 by omega, (hchunk 5 _ hmem).trans_lt hmax⟩
    · exact ⟨show 6 < 2 ^ 74 by omega, (hchunk 6 _ hmem).trans_lt hmax⟩
    · exact numberField_fits (by omega) htime field hfield
    · exact numberField_fits (by omega) hduration field hfield
    · have := (hcomments index hindex).2
      exact numberField_fits (by omega) (by rw [Readable]; omega) field hfield
  · obtain ⟨hfirst, hsecond⟩ := hpairs pair hpair
    constructor <;> rw [Readable] <;> omega
  · obtain ⟨j, rfl, hj⟩ := hids sample hsample id hid
    exact ⟨by omega, by rw [Readable]; omega⟩

/-- A profile of samples with natural values is read back: the samples resolve to their stacks,
from the leaf on, with their values, and the sample types, comments and times are the ones
that were given. -/
theorem decode_serialized (samples : List (List Text × List ℤ)) (sampleTypes : List (Text × Text))
    (timeNanos durationNanos : ℤ) (comments : List Text)
    (hvalues : ∀ sample ∈ samples, ∀ value ∈ sample.2, 0 ≤ value ∧ value < 2 ^ 77)
    (htime : 0 ≤ timeNanos ∧ timeNanos < 2 ^ 77)
    (hduration : 0 ≤ durationNanos ∧ durationNanos < 2 ^ 77)
    (hcomments : ∀ comment ∈ comments, comment ≠ []) :
    ∃ profile raw, Profile.ofSamples samples = .ok profile ∧
      profile.serialize sampleTypes timeNanos durationNanos comments = .ok raw ∧
      (raw.length ≤ maxSize → ∃ decoded, decodeProfile raw = .ok decoded ∧
        decoded.samples.map (fun sample => (decoded.stack sample.locationIds, sample.values)) =
          samples.map (fun sample => (some sample.1.reverse, sample.2.map Int.toNat)) ∧
        decoded.sampleTypes = sampleTypes ∧ decoded.comments = comments ∧
        decoded.timeNanos = timeNanos.toNat ∧ decoded.durationNanos = durationNanos.toNat) := by
  let naturals := samples.map fun sample => (sample.1, sample.2.map Int.toNat)
  have hnaturals : naturals.map (fun sample =>
      (sample.1, sample.2.map fun value : ℕ => (value : ℤ))) = samples := by
    rw [List.map_map]
    refine (List.map_congr_left fun sample hsample => ?_).trans (List.map_id samples)
    have hback : (sample.2.map Int.toNat).map (fun value : ℕ => (value : ℤ)) = sample.2 := by
      rw [List.map_map]
      refine (List.map_congr_left fun value hvalue => ?_).trans (List.map_id sample.2)
      exact Int.toNat_of_nonneg (hvalues sample hsample value hvalue).1
    exact Prod.ext rfl hback
  have hnothing : Profile.Holds {} [] [] [] [] := ⟨sound_empty, rfl, List.Forall₂.nil⟩
  obtain ⟨profile, names, targets, recorded, hadded, hholds⟩ := foldlM_addSample hnothing naturals
  rw [hnaturals] at hadded
  rw [List.nil_append] at hholds
  obtain ⟨hsound₁, hgrown₁, pairs, hmessages, htypes⟩ := typeMessages_spec hholds.sound sampleTypes
  obtain ⟨hsound₂, hgrown₂, hindices⟩ := internAll_spec hsound₁ comments
  set typed := (profile.typeMessages sampleTypes).2
  set final := (typed.internAll comments).2
  set indices := (typed.internAll comments).1
  have hfinal := (hholds.grow hsound₁ hgrown₁).grow hsound₂ hgrown₂
  have htypes' := htypes.imp fun pair type htype =>
    And.intro (getElem?_of_extends hgrown₂.strings htype.1)
      (getElem?_of_extends hgrown₂.strings htype.2)
  let fields := final.fields pairs recorded names targets timeNanos.toNat durationNanos.toNat
    indices
  refine ⟨profile, encode fields, hadded, ?_, fun hsize => ?_⟩
  · have htime' : ¬ timeNanos < 0 := by omega
    have hduration' : ¬ durationNanos < 0 := by omega
    rw [Profile.serialize, Profile.encodeTime, Profile.encodeTime, if_neg htime',
      if_neg hduration']
    dsimp only [fields]
    rw [encode_fields hfinal.sound hfinal.written, ← hmessages]
    rfl
  · have hreadables : Readables final pairs recorded names targets timeNanos.toNat
        durationNanos.toNat indices := by
      refine readables hfinal.sound ?_ ?_ ?_ ?_ ?_ ?_ hsize
      · intro pair hpair
        obtain ⟨type, _, hname, hunit⟩ := exists_of_forall₂ htypes' hpair
        exact ⟨(List.getElem?_eq_some_iff.mp hname).1, (List.getElem?_eq_some_iff.mp hunit).1⟩
      · intro sample hsample id hid
        obtain ⟨given, _, hresolved, _⟩ := exists_of_forall₂ hfinal.resolved hsample
        obtain ⟨name, _, j, k, index, hid, htarget, _⟩ := exists_of_forall₂ hresolved hid
        exact ⟨j, hid, (List.getElem?_eq_some_iff.mp htarget).1⟩
      · intro sample hsample value hvalue
        obtain ⟨given, hgiven, _, hsame⟩ := exists_of_forall₂ hfinal.resolved hsample
        obtain ⟨original, horiginal, rfl⟩ := List.mem_map.mp hgiven
        rw [hsame] at hvalue
        obtain ⟨integer, hinteger, rfl⟩ := List.mem_map.mp hvalue
        have := hvalues original horiginal integer hinteger
        rw [Readable]
        omega
      · rw [Readable]
        omega
      · rw [Readable]
        omega
      · intro index hindex
        obtain ⟨comment, hcomment, hat⟩ := exists_of_forall₂ hindices hindex
        refine ⟨?_, (List.getElem?_eq_some_iff.mp hat).1⟩
        rintro rfl
        rw [hfinal.sound.empty] at hat
        exact hcomments comment hcomment (Option.some.inj hat).symm
    have hnames : ∀ item ∈ numbered names, item.2 < final.strings.length := by
      intro item hitem
      obtain ⟨i, hi, rfl⟩ := List.exists_of_mem_mapIdx hitem
      exact hfinal.sound.named _ (List.getElem_mem hi)
    let state : Decoding := {
      sampleTypes := pairs, samples := recorded.map fun sample => ⟨sample.1, sample.2⟩
      locations := numbered targets, functions := numbered names, strings := final.strings
      comments := indices, timeNanos := timeNanos.toNat, durationNanos := durationNanos.toNat }
    have hdecode : decodeProfile (encode fields) = .ok {
        sampleTypes, samples := state.samples, locations := state.locations
        functions := state.functions.map fun item => (item.1, state.strings.getD item.2 [])
        strings := state.strings, comments
        timeNanos := state.timeNanos, durationNanos := state.durationNanos } := by
      rw [decodeProfile, decode_fields hreadables]
      exact @finish_ok state sampleTypes comments hfinal.sound.empty htypes' hnames hindices
    refine ⟨_, hdecode, ?_, rfl, rfl, rfl, rfl⟩
    have hsamples : List.Forall₂ (fun sample given =>
        sample.2 = given.2.map Int.toNat ∧
          List.Forall₂ (Resolves final.strings names targets) sample.1 given.1.reverse)
        recorded samples := by
      refine (List.forall₂_map_right_iff.mp hfinal.resolved).imp fun sample given hsample => ?_
      exact ⟨hsample.2, hsample.1⟩
    dsimp only [state]
    rw [List.map_map]
    refine List.forall₂_eq_eq_eq ▸ List.forall₂_map_left_iff.mpr
      (List.forall₂_map_right_iff.mpr (hsamples.imp fun sample given hsample => ?_))
    exact Prod.ext (stack_ok rfl rfl hsample.2) hsample.1

end RoundTrip

/-! Two samples that share a name, with zeros among their values. -/

/-- Two stacks from the root to the leaf. -/
def demoSamples : List (List Text × List ℤ) :=
  [(["run".toList, "leaf".toList], [0, 300]), (["run".toList], [7, 0])]

/-- The profile of the two samples. -/
def demoProfile : Except WriteError Bytes := do
  let profile ← Profile.ofSamples demoSamples
  profile.serialize [("in".toList, "count".toList)] 7 0 ["c".toList]

/-- The stacks come back from the leaf on, with the zeros. -/
theorem decode_serialized_demo : ∃ raw decoded, demoProfile = .ok raw ∧
    decodeProfile raw = .ok decoded ∧
    decoded.samples.map (fun sample => (decoded.stack sample.locationIds, sample.values)) =
      [(some ["leaf".toList, "run".toList], [0, 300]), (some ["run".toList], [7, 0])] ∧
    decoded.comments = ["c".toList] := by
  obtain ⟨profile, raw, hprofile, hraw, hdecodes⟩ := decode_serialized demoSamples
    [("in".toList, "count".toList)] 7 0 ["c".toList] (by decide) (by decide) (by decide) (by decide)
  have hwritten : demoProfile = .ok raw := by
    rw [demoProfile, hprofile]
    exact hraw
  have hlength : demoProfile.toOption.map List.length = some 88 := by decide +kernel
  have hsize : raw.length ≤ maxSize := by
    rw [hwritten] at hlength
    rw [show raw.length = 88 from Option.some.inj hlength, maxSize]
    omega
  obtain ⟨decoded, hdecode, hsamples, -, hcomments, -⟩ := hdecodes hsize
  exact ⟨raw, decoded, hwritten, hdecode, hsamples, hcomments⟩

end Tracewake.Profiles
