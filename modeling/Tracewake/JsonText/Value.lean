import Tracewake.JsonText.Number
import Mathlib.Data.List.Basic

/-!
# JSON values

Values carry the numbers of a type parameter, so that one tree serves for number
spellings and for number values. An object lists its fields in the order of the text;
`canon` reads the list as a dictionary, where a later field replaces an earlier one of
the same key, and orders the keys.
-/

namespace Tracewake.JsonText

/-- A JSON value with numbers in `N`. -/
inductive Json (N : Type) where
  | null
  | bool (b : Bool)
  | num (n : N)
  | str (s : Text)
  | arr (items : List (Json N))
  | obj (fields : List (Text × Json N))
  deriving Repr

namespace Json

variable {N M : Type}

mutual

/-- A property of all values follows from its cases, where arrays and objects may use it of
their parts. The three inductions run together. -/
private theorem induction_value {P : Json N → Prop} (null : P .null) (bool : ∀ b, P (.bool b))
    (num : ∀ n, P (.num n)) (str : ∀ s, P (.str s))
    (arr : ∀ items, (∀ v ∈ items, P v) → P (.arr items))
    (obj : ∀ fields, (∀ f ∈ fields, P f.2) → P (.obj fields)) : ∀ v, P v
  | .null => null
  | .bool b => bool b
  | .num n => num n
  | .str s => str s
  | .arr items => arr items (induction_items null bool num str arr obj items)
  | .obj fields => obj fields (induction_fields null bool num str arr obj fields)

/-- The same property of all items of a list. -/
private theorem induction_items {P : Json N → Prop} (null : P .null) (bool : ∀ b, P (.bool b))
    (num : ∀ n, P (.num n)) (str : ∀ s, P (.str s))
    (arr : ∀ items, (∀ v ∈ items, P v) → P (.arr items))
    (obj : ∀ fields, (∀ f ∈ fields, P f.2) → P (.obj fields)) :
    ∀ items : List (Json N), ∀ v ∈ items, P v
  | [], _, h => absurd h List.not_mem_nil
  | w :: rest, v, h => (List.mem_cons.mp h).elim
      (fun heq => heq ▸ induction_value null bool num str arr obj w)
      (induction_items null bool num str arr obj rest v)

/-- The same property of all fields of a list. -/
private theorem induction_fields {P : Json N → Prop} (null : P .null) (bool : ∀ b, P (.bool b))
    (num : ∀ n, P (.num n)) (str : ∀ s, P (.str s))
    (arr : ∀ items, (∀ v ∈ items, P v) → P (.arr items))
    (obj : ∀ fields, (∀ f ∈ fields, P f.2) → P (.obj fields)) :
    ∀ fields : List (Text × Json N), ∀ f ∈ fields, P f.2
  | [], _, h => absurd h List.not_mem_nil
  | (_, w) :: rest, f, h => (List.mem_cons.mp h).elim
      (fun heq => heq ▸ induction_value null bool num str arr obj w)
      (induction_fields null bool num str arr obj rest f)

end

/-- A property of all values follows from arrays and objects inheriting it from
what they contain. -/
@[elab_as_elim, induction_eliminator]
theorem induction {P : Json N → Prop} (null : P .null) (bool : ∀ b, P (.bool b))
    (num : ∀ n, P (.num n)) (str : ∀ s, P (.str s))
    (arr : ∀ items, (∀ v ∈ items, P v) → P (.arr items))
    (obj : ∀ fields, (∀ f ∈ fields, P f.2) → P (.obj fields)) (v : Json N) : P v :=
  induction_value null bool num str arr obj v

/-! ## Contents -/

mutual

/-- How deep arrays and objects nest. -/
def depth : Json N → ℕ
  | .arr items => depthItems items + 1
  | .obj fields => depthFields fields + 1
  | _ => 0

def depthItems : List (Json N) → ℕ
  | [] => 0
  | v :: rest => max v.depth (depthItems rest)

def depthFields : List (Text × Json N) → ℕ
  | [] => 0
  | (_, v) :: rest => max v.depth (depthFields rest)

end

mutual

/-- All strings of a value, its object keys included. -/
def strings : Json N → List Text
  | .str s => [s]
  | .arr items => stringsItems items
  | .obj fields => stringsFields fields
  | _ => []

def stringsItems : List (Json N) → List Text
  | [] => []
  | v :: rest => v.strings ++ stringsItems rest

def stringsFields : List (Text × Json N) → List Text
  | [] => []
  | (k, v) :: rest => k :: (v.strings ++ stringsFields rest)

end

mutual

/-- All numbers of a value. -/
def numbers : Json N → List N
  | .num n => [n]
  | .arr items => numbersItems items
  | .obj fields => numbersFields fields
  | _ => []

def numbersItems : List (Json N) → List N
  | [] => []
  | v :: rest => v.numbers ++ numbersItems rest

def numbersFields : List (Text × Json N) → List N
  | [] => []
  | (_, v) :: rest => v.numbers ++ numbersFields rest

end

mutual

/-- The value with every number replaced. -/
def map (f : N → M) : Json N → Json M
  | .null => .null
  | .bool b => .bool b
  | .num n => .num (f n)
  | .str s => .str s
  | .arr items => .arr (mapItems f items)
  | .obj fields => .obj (mapFields f fields)

def mapItems (f : N → M) : List (Json N) → List (Json M)
  | [] => []
  | v :: rest => v.map f :: mapItems f rest

def mapFields (f : N → M) : List (Text × Json N) → List (Text × Json M)
  | [] => []
  | (k, v) :: rest => (k, v.map f) :: mapFields f rest

end

/-- Mapping the numbers of items is mapping those of each. -/
theorem mapItems_eq (f : N → M) (items : List (Json N)) : mapItems f items = items.map (map f) := by
  induction items with
  | nil => rfl
  | cons v rest ih => simp [mapItems, ih]

/-- Mapping the numbers of fields is mapping those of each value. -/
theorem mapFields_eq (f : N → M) (fields : List (Text × Json N)) :
    mapFields f fields = fields.map fun entry => (entry.1, entry.2.map f) := by
  induction fields with
  | nil => rfl
  | cons entry rest ih => simp [mapFields, ih]

/-- The texts of items are those of some item. -/
theorem mem_stringsItems {items : List (Json N)} {s : Text} :
    s ∈ stringsItems items ↔ ∃ v ∈ items, s ∈ v.strings := by
  induction items with
  | nil => simp [stringsItems]
  | cons v rest ih => simp [stringsItems, ih]

/-- The texts of fields are keys or texts of some value. -/
theorem mem_stringsFields {fields : List (Text × Json N)} {s : Text} :
    s ∈ stringsFields fields ↔ ∃ f ∈ fields, s = f.1 ∨ s ∈ f.2.strings := by
  induction fields with
  | nil => simp [stringsFields]
  | cons f rest ih => simp [stringsFields, ih, or_assoc]

/-- The numbers of items are those of some item. -/
theorem mem_numbersItems {items : List (Json N)} {n : N} :
    n ∈ numbersItems items ↔ ∃ v ∈ items, n ∈ v.numbers := by
  induction items with
  | nil => simp [numbersItems]
  | cons v rest ih => simp [numbersItems, ih]

/-- The numbers of fields are those of some value. -/
theorem mem_numbersFields {fields : List (Text × Json N)} {n : N} :
    n ∈ numbersFields fields ↔ ∃ f ∈ fields, n ∈ f.2.numbers := by
  induction fields with
  | nil => simp [numbersFields]
  | cons f rest ih => simp [numbersFields, ih]

/-- Replacing numbers by functions that agree on the numbers of a value gives one value. -/
theorem map_congr {f g : N → M} (v : Json N) (h : ∀ n ∈ v.numbers, f n = g n) :
    v.map f = v.map g := by
  induction v with
  | null | bool | str => rfl
  | num n => simp [map, h n (by simp [numbers])]
  | arr items ih =>
    simp only [map, mapItems_eq, arr.injEq]
    refine List.map_congr_left fun v hv => ih v hv fun n hn => h n ?_
    exact mem_numbersItems.mpr ⟨v, hv, hn⟩
  | obj fields ih =>
    simp only [map, mapFields_eq, obj.injEq]
    refine List.map_congr_left fun entry hentry => ?_
    rw [ih entry hentry fun n hn => h n (mem_numbersFields.mpr ⟨entry, hentry, hn⟩)]

/-- Numbers that are mapped twice are mapped by the composition. -/
theorem map_map {K : Type} (f : N → M) (g : M → K) (v : Json N) :
    (v.map f).map g = v.map fun n => g (f n) := by
  induction v with
  | null | bool | str | num => rfl
  | arr items ih =>
    simp only [map, mapItems_eq, List.map_map, arr.injEq]
    exact List.map_congr_left fun v hv => ih v hv
  | obj fields ih =>
    simp only [map, mapFields_eq, List.map_map, obj.injEq]
    refine List.map_congr_left fun entry hentry => ?_
    simp [ih entry hentry]

/-- Mapping every number to itself changes nothing. -/
theorem map_id' (v : Json N) : (v.map fun n => n) = v := by
  induction v with
  | null | bool | str | num => rfl
  | arr items ih =>
    simp only [map, mapItems_eq, arr.injEq]
    exact (List.map_congr_left ih).trans (List.map_id items)
  | obj fields ih =>
    simp only [map, mapFields_eq, obj.injEq]
    refine (List.map_congr_left fun entry hentry => ?_).trans (List.map_id _)
    simp [ih entry hentry]

/-- Mapping the numbers leaves the texts. -/
theorem map_strings (f : N → M) (v : Json N) : (v.map f).strings = v.strings := by
  induction v with
  | null | bool | str | num => rfl
  | arr items ih =>
    simp only [map, strings]
    induction items with
    | nil => rfl
    | cons v rest ihrest =>
      simp only [mapItems, stringsItems, ih v (by simp),
        ihrest fun w hw => ih w (List.mem_cons_of_mem v hw)]
  | obj fields ih =>
    simp only [map, strings]
    induction fields with
    | nil => rfl
    | cons entry rest ihrest =>
      simp only [mapFields, stringsFields, ih entry (by simp),
        ihrest fun w hw => ih w (List.mem_cons_of_mem entry hw)]

/-- The numbers are those that were mapped, in their order. -/
theorem map_numbers (f : N → M) (v : Json N) : (v.map f).numbers = v.numbers.map f := by
  induction v with
  | null | bool | str | num => rfl
  | arr items ih =>
    simp only [map, numbers]
    induction items with
    | nil => rfl
    | cons v rest ihrest =>
      simp only [mapItems, numbersItems, ih v (by simp), List.map_append,
        ihrest fun w hw => ih w (List.mem_cons_of_mem v hw)]
  | obj fields ih =>
    simp only [map, numbers]
    induction fields with
    | nil => rfl
    | cons entry rest ihrest =>
      simp only [mapFields, numbersFields, ih entry (by simp), List.map_append,
        ihrest fun w hw => ih w (List.mem_cons_of_mem entry hw)]

/-- A function that changes no value changes none of its numbers. -/
theorem eq_of_map_eq_self {f : N → N} {v : Json N} (h : v.map f = v) {n : N}
    (hn : n ∈ v.numbers) : f n = n := by
  have hnumbers : v.numbers.map f = v.numbers := by rw [← map_numbers, h]
  have hall : ∀ l : List N, l.map f = l → ∀ n ∈ l, f n = n := by
    intro l
    induction l with
    | nil => simp
    | cons m l ih =>
      intro heq k hk
      obtain ⟨hhead, htail⟩ := List.cons.inj heq
      rcases List.mem_cons.mp hk with rfl | hk
      · exact hhead
      · exact ih htail k hk
  exact hall _ hnumbers n hn

/-- Mapping the numbers leaves the nesting. -/
theorem map_depth (f : N → M) (v : Json N) : (v.map f).depth = v.depth := by
  induction v with
  | null | bool | str | num => rfl
  | arr items ih =>
    simp only [map, depth]
    induction items with
    | nil => rfl
    | cons v rest ihrest =>
      have htail := ihrest fun w hw => ih w (List.mem_cons_of_mem v hw)
      simp only [mapItems, depthItems, ih v (by simp)]
      omega
  | obj fields ih =>
    simp only [map, depth]
    induction fields with
    | nil => rfl
    | cons entry rest ihrest =>
      have htail := ihrest fun w hw => ih w (List.mem_cons_of_mem entry hw)
      simp only [mapFields, depthFields, ih entry (by simp)]
      omega

/-! ## Dictionaries -/

/-- Put a field in front of the fields of a dictionary with ordered keys. The field of
the dictionary stays where the key is there already. -/
def insertField (lt : Text → Text → Bool) (key : Text) (v : Json N) :
    List (Text × Json N) → List (Text × Json N)
  | [] => [(key, v)]
  | (k, w) :: rest =>
    if lt key k then (key, v) :: (k, w) :: rest
    else if key = k then (k, w) :: rest
    else (k, w) :: insertField lt key v rest

mutual

/-- The value with every object read as a dictionary and its keys ordered. -/
def canon (lt : Text → Text → Bool) : Json N → Json N
  | .arr items => .arr (canonItems lt items)
  | .obj fields => .obj (canonFields lt fields)
  | v => v

def canonItems (lt : Text → Text → Bool) : List (Json N) → List (Json N)
  | [] => []
  | v :: rest => v.canon lt :: canonItems lt rest

def canonFields (lt : Text → Text → Bool) : List (Text × Json N) → List (Text × Json N)
  | [] => []
  | (k, v) :: rest => insertField lt k (v.canon lt) (canonFields lt rest)

end

/-- The field of an object under a key: the last one of the text. -/
def field (key : Text) : Json N → Option (Json N)
  | .obj fields => (fields.reverse.find? fun f => f.1 = key).map Prod.snd
  | _ => none

/-- Items are sorted one by one. -/
theorem canonItems_eq (lt : Text → Text → Bool) (items : List (Json N)) :
    canonItems lt items = items.map (canon lt) := by
  induction items with
  | nil => rfl
  | cons v rest ih => simp [canonItems, ih]

/-- The keys are in order, each once. -/
def Ordered (lt : Text → Text → Bool) (fields : List (Text × Json N)) : Prop :=
  fields.Pairwise fun f g => lt f.1 g.1 = true

/-- What a strict order of keys satisfies. -/
structure KeyOrder (lt : Text → Text → Bool) : Prop where
  irrefl : ∀ a, lt a a = false
  trans : ∀ a b c, lt a b = true → lt b c = true → lt a c = true
  total : ∀ a b, lt a b = true ∨ a = b ∨ lt b a = true

variable {lt : Text → Text → Bool}

/-- What is in the fields after an insertion was there or has been inserted. -/
theorem mem_insertField {key : Text} {v : Json N} {fields : List (Text × Json N)}
    {f : Text × Json N} (h : f ∈ insertField lt key v fields) : f = (key, v) ∨ f ∈ fields := by
  induction fields with
  | nil => simpa [insertField] using h
  | cons entry rest ih =>
    obtain ⟨k, w⟩ := entry
    simp only [insertField] at h
    split at h
    · simpa using h
    · split at h
      · exact .inr h
      · rcases List.mem_cons.mp h with rfl | h
        · simp
        · rcases ih h with h | h
          · exact .inl h
          · exact .inr (List.mem_cons_of_mem _ h)

/-- An insertion keeps the keys in order and distinct. -/
theorem insertField_ordered (hlt : KeyOrder lt) {key : Text} {v : Json N}
    {fields : List (Text × Json N)} (h : Ordered lt fields) :
    Ordered lt (insertField lt key v fields) := by
  induction fields with
  | nil => simp [insertField, Ordered]
  | cons entry rest ih =>
    obtain ⟨k, w⟩ := entry
    have hrest := List.pairwise_cons.mp h
    simp only [insertField]
    split
    · next hless =>
      refine List.pairwise_cons.mpr ⟨fun f hf => ?_, h⟩
      rcases List.mem_cons.mp hf with rfl | hf
      · exact hless
      · exact hlt.trans _ _ _ hless (hrest.1 f hf)
    · next hnot =>
      split
      · exact h
      · next hne =>
        have hgreater : lt k key = true := by
          rcases hlt.total key k with hless | heq | hgreater
          · exact absurd hless hnot
          · exact absurd heq hne
          · exact hgreater
        refine List.pairwise_cons.mpr ⟨fun f hf => ?_, ih hrest.2⟩
        rcases mem_insertField hf with rfl | hf
        · exact hgreater
        · exact hrest.1 f hf

/-- Sorted fields are in order and distinct. By induction on the fields. -/
theorem canonFields_ordered (hlt : KeyOrder lt) (fields : List (Text × Json N)) :
    Ordered lt (canonFields lt fields) := by
  induction fields with
  | nil => exact List.Pairwise.nil
  | cons entry rest ih => exact insertField_ordered hlt ih

/-- A field below all others is put in front. -/
theorem insertField_of_ordered {key : Text} {v : Json N} {fields : List (Text × Json N)}
    (h : Ordered lt ((key, v) :: fields)) : insertField lt key v fields = (key, v) :: fields := by
  cases fields with
  | nil => rfl
  | cons entry rest =>
    have hless := (List.pairwise_cons.mp h).1 entry (by simp)
    simp [insertField, hless]

/-- Ordered fields with canonical values are a canonical object. -/
theorem canonFields_of_ordered {fields : List (Text × Json N)} (h : Ordered lt fields)
    (hvalues : ∀ f ∈ fields, f.2.canon lt = f.2) : canonFields lt fields = fields := by
  induction fields with
  | nil => rfl
  | cons entry rest ih =>
    obtain ⟨k, v⟩ := entry
    have htail := ih (List.pairwise_cons.mp h).2 fun f hf => hvalues f (List.mem_cons_of_mem _ hf)
    simp only [canonFields, htail, hvalues (k, v) (by simp), insertField_of_ordered h]

/-- A sorted field comes from a field with its value sorted. -/
theorem mem_canonFields {fields : List (Text × Json N)} {f : Text × Json N}
    (h : f ∈ canonFields lt fields) : ∃ g ∈ fields, f = (g.1, g.2.canon lt) := by
  induction fields with
  | nil => simp [canonFields] at h
  | cons entry rest ih =>
    rcases mem_insertField h with rfl | h
    · exact ⟨entry, by simp, rfl⟩
    · obtain ⟨g, hg, heq⟩ := ih h
      exact ⟨g, List.mem_cons_of_mem _ hg, heq⟩

/-- A canonical value is canonical. -/
theorem canon_canon (hlt : KeyOrder lt) (v : Json N) : (v.canon lt).canon lt = v.canon lt := by
  induction v with
  | null | bool | str | num => rfl
  | arr items ih =>
    simp only [canon, canonItems_eq, List.map_map, arr.injEq]
    exact List.map_congr_left fun v hv => ih v hv
  | obj fields ih =>
    simp only [canon, obj.injEq]
    refine canonFields_of_ordered (canonFields_ordered hlt fields) fun f hf => ?_
    obtain ⟨g, hg, rfl⟩ := mem_canonFields hf
    exact ih g hg

/-- Sorting adds no number. -/
theorem canon_numbers {v : Json N} {n : N} (h : n ∈ (v.canon lt).numbers) : n ∈ v.numbers := by
  induction v with
  | null | bool | str | num => exact h
  | arr items ih =>
    simp only [canon, canonItems_eq, numbers, mem_numbersItems, List.mem_map] at h ⊢
    obtain ⟨w, ⟨v, hv, rfl⟩, hn⟩ := h
    exact ⟨v, hv, ih v hv hn⟩
  | obj fields ih =>
    simp only [canon, numbers, mem_numbersFields] at h ⊢
    obtain ⟨f, hf, hn⟩ := h
    obtain ⟨g, hg, rfl⟩ := mem_canonFields hf
    exact ⟨g, hg, ih g hg hn⟩

/-- Mapping the numbers commutes with an insertion, which looks at keys only. -/
theorem map_insertField (f : N → M) (key : Text) (v : Json N) (fields : List (Text × Json N)) :
    mapFields f (insertField lt key v fields) =
      insertField lt key (v.map f) (mapFields f fields) := by
  induction fields with
  | nil => rfl
  | cons entry rest ih =>
    obtain ⟨k, w⟩ := entry
    simp only [insertField, mapFields]
    split
    · rfl
    · split
      · rfl
      · simp [mapFields, ih]

/-- Ordering keys and replacing numbers commute. -/
theorem map_canon (f : N → M) (v : Json N) : (v.canon lt).map f = (v.map f).canon lt := by
  induction v with
  | null | bool | str | num => rfl
  | arr items ih =>
    simp only [map, canon, mapItems_eq, canonItems_eq, List.map_map, arr.injEq]
    exact List.map_congr_left fun v hv => ih v hv
  | obj fields ih =>
    simp only [map, canon, obj.injEq]
    induction fields with
    | nil => rfl
    | cons entry rest ihrest =>
      obtain ⟨k, w⟩ := entry
      simp only [canonFields, map_insertField, mapFields, ih (k, w) (by simp),
        ihrest fun g hg => ih g (List.mem_cons_of_mem _ hg)]

end Json

end Tracewake.JsonText
