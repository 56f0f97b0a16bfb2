import Tracewake.JsonText.Value
import Mathlib.Data.List.Pairwise

/-!
# Dictionaries

A dictionary is a list of fields with ordered keys. This module has the operations on
one key, `lookup`, `setField` and `eraseKey`, and shows that a dictionary is determined
by its lookups, so that equalities between dictionaries are proved key by key.
-/

namespace Tracewake.JsonText.Json

variable {N : Type} {lt : Text → Text → Bool}

/-- The first field under a key. -/
def lookup (key : Text) (fields : List (Text × Json N)) : Option (Json N) :=
  (fields.find? fun f => f.1 = key).map Prod.snd

/-- The fields under other keys. -/
def eraseKey (key : Text) (fields : List (Text × Json N)) : List (Text × Json N) :=
  fields.filter fun f => f.1 ≠ key

/-- Put a value under a key of a dictionary. -/
def setField (lt : Text → Text → Bool) (key : Text) (v : Json N)
    (fields : List (Text × Json N)) : List (Text × Json N) :=
  insertField lt key v (eraseKey key fields)

/-- The empty object has no key. -/
@[simp] theorem lookup_nil (key : Text) : lookup key ([] : List (Text × Json N)) = none := rfl

/-- The first field with the key is the one that is found. -/
theorem lookup_cons (key : Text) (f : Text × Json N) (fields : List (Text × Json N)) :
    lookup key (f :: fields) = if f.1 = key then some f.2 else lookup key fields := by
  by_cases h : f.1 = key <;> simp [lookup, h]

/-- A key below all keys of a dictionary is not in it. -/
theorem lookup_eq_none {key : Text} {fields : List (Text × Json N)}
    (h : ∀ f ∈ fields, f.1 ≠ key) : lookup key fields = none := by
  simp only [lookup, Option.map_eq_none_iff, List.find?_eq_none, decide_eq_true_eq]
  exact h

/-- What is found is a field. -/
theorem lookup_mem {key : Text} {v : Json N} {fields : List (Text × Json N)}
    (h : lookup key fields = some v) : (key, v) ∈ fields := by
  obtain ⟨f, hf, rfl⟩ := Option.map_eq_some_iff.mp h
  have hkey : f.1 = key := by simpa using List.find?_some hf
  exact hkey ▸ List.mem_of_find?_eq_some hf

/-- Erasing a key leaves the other keys as they are. -/
theorem lookup_eraseKey (key k : Text) (fields : List (Text × Json N)) :
    lookup k (eraseKey key fields) = if k = key then none else lookup k fields := by
  induction fields with
  | nil => simp [eraseKey]
  | cons f rest ih =>
    by_cases hf : f.1 = key
    · have hcons : eraseKey key (f :: rest) = eraseKey key rest := by simp [eraseKey, hf]
      rw [hcons, ih, lookup_cons, hf]
      by_cases hk : k = key
      · simp [hk]
      · simp [hk, Ne.symm hk]
    · have hcons : eraseKey key (f :: rest) = f :: eraseKey key rest := by simp [eraseKey, hf]
      rw [hcons, lookup_cons, ih, lookup_cons]
      by_cases hk : f.1 = k
      · have hne : k ≠ key := fun h => hf (hk.trans h)
        simp [hk, hne]
      · simp [hk]

/-- Erasing a key keeps the order of the others. -/
theorem eraseKey_ordered {key : Text} {fields : List (Text × Json N)} (h : Ordered lt fields) :
    Ordered lt (eraseKey key fields) :=
  List.Pairwise.filter _ h

/-- A key is erased from both parts. -/
theorem eraseKey_append (key : Text) (a b : List (Text × Json N)) :
    eraseKey key (a ++ b) = eraseKey key a ++ eraseKey key b :=
  List.filter_append a b

/-- Erasing a key that is not there changes nothing. -/
theorem eraseKey_of_notMem {key : Text} {fields : List (Text × Json N)}
    (h : ∀ f ∈ fields, f.1 ≠ key) : eraseKey key fields = fields :=
  List.filter_eq_self.mpr fun f hf => decide_eq_true (h f hf)

/-- The field that is put in front stays behind a field that is there. -/
theorem lookup_insertField (hlt : KeyOrder lt) {key : Text} {v : Json N}
    {fields : List (Text × Json N)} (h : Ordered lt fields) (k : Text) :
    lookup k (insertField lt key v fields) =
      if k = key then (lookup key fields).or (some v) else lookup k fields := by
  induction fields with
  | nil =>
    rw [insertField, lookup_cons]
    by_cases hk : k = key
    · simp [hk]
    · simp [hk, Ne.symm hk]
  | cons entry rest ih =>
    obtain ⟨j, w⟩ := entry
    obtain ⟨hhead, hrest⟩ := List.pairwise_cons.mp h
    simp only [insertField]
    split
    · next hless =>
      have habsent : lookup key ((j, w) :: rest) = none := by
        refine lookup_eq_none fun f hf heq => ?_
        rcases List.mem_cons.mp hf with rfl | hf
        · obtain rfl : j = key := heq
          rw [hlt.irrefl] at hless
          cases hless
        · have hbelow := hlt.trans _ _ _ hless (hhead f hf)
          rw [heq, hlt.irrefl] at hbelow
          cases hbelow
      rw [lookup_cons, habsent]
      by_cases hk : k = key
      · simp [hk]
      · simp [hk, Ne.symm hk]
    · next hnot =>
      split
      · next heq =>
        subst heq
        simp only [lookup_cons, ↓reduceIte, Option.some_or]
        by_cases hk : k = key
        · simp [hk]
        · simp [hk, Ne.symm hk]
      · next hne =>
        rw [lookup_cons, ih hrest, lookup_cons, lookup_cons]
        by_cases hk : k = key
        · subst hk
          simp [Ne.symm hne]
        · simp [hk]

/-- A key that is not there yet comes with its field. -/
theorem mem_insertField_iff {key : Text} {v : Json N} {fields : List (Text × Json N)}
    (h : ∀ f ∈ fields, f.1 ≠ key) {f : Text × Json N} :
    f ∈ insertField lt key v fields ↔ f = (key, v) ∨ f ∈ fields := by
  induction fields with
  | nil => simp [insertField]
  | cons entry rest ih =>
    obtain ⟨k, w⟩ := entry
    have hne : ¬ key = k := fun heq => h (k, w) List.mem_cons_self heq.symm
    have hrest := ih fun g hg => h g (List.mem_cons_of_mem _ hg)
    rw [insertField, if_neg hne]
    split
    · rw [List.mem_cons]
    · rw [List.mem_cons, hrest, List.mem_cons]
      exact or_left_comm

/-- The fields after setting a key. -/
theorem mem_setField {key : Text} {v : Json N} {fields : List (Text × Json N)}
    {f : Text × Json N} :
    f ∈ setField lt key v fields ↔ f = (key, v) ∨ f ∈ fields ∧ f.1 ≠ key := by
  have herased : ∀ g ∈ eraseKey key fields, g.1 ≠ key := fun g hg => by
    simpa [eraseKey] using (List.mem_filter.mp hg).2
  rw [setField, mem_insertField_iff herased, eraseKey, List.mem_filter, decide_eq_true_eq]

/-- A dictionary is determined by its lookups. -/
theorem ordered_ext (hlt : KeyOrder lt) {a b : List (Text × Json N)} (ha : Ordered lt a)
    (hb : Ordered lt b) (h : ∀ k, lookup k a = lookup k b) : a = b := by
  have hbelow : ∀ {f : Text × Json N} {rest : List (Text × Json N)}, Ordered lt (f :: rest) →
      lookup f.1 rest = none := by
    intro f rest hordered
    refine lookup_eq_none fun g hg heq => ?_
    have hless := (List.pairwise_cons.mp hordered).1 g hg
    rw [heq, hlt.irrefl] at hless
    cases hless
  induction a generalizing b with
  | nil =>
    cases b with
    | nil => rfl
    | cons g restb => simpa [lookup_cons] using h g.1
  | cons f resta ih =>
    cases b with
    | nil => simpa [lookup_cons] using h f.1
    | cons g restb =>
      have hkeys : f.1 = g.1 := by
        by_contra hne
        have hf : lookup f.1 restb = some f.2 := by
          simpa [lookup_cons, Ne.symm hne] using (h f.1).symm
        have hg : lookup g.1 resta = some g.2 := by
          simpa [lookup_cons, hne] using h g.1
        have hgf := (List.pairwise_cons.mp hb).1 _ (lookup_mem hf)
        have hfg := (List.pairwise_cons.mp ha).1 _ (lookup_mem hg)
        have hloop := hlt.trans _ _ _ hfg hgf
        rw [hlt.irrefl] at hloop
        cases hloop
      have hvalues : f.2 = g.2 := by
        simpa [lookup_cons, hkeys] using h f.1
      rw [Prod.ext hkeys hvalues, ih (List.pairwise_cons.mp ha).2 (List.pairwise_cons.mp hb).2]
      intro k
      by_cases hk : g.1 = k
      · rw [← hk, hbelow hb, ← hkeys, hbelow ha]
      · simpa [lookup_cons, hk, hkeys] using h k

/-- The lookups of an object's dictionary are the last fields of its text. -/
theorem lookup_canonFields (hlt : KeyOrder lt) (k : Text) (fields : List (Text × Json N)) :
    lookup k (canonFields lt fields) = (field k (.obj fields)).map (canon lt) := by
  induction fields with
  | nil => rfl
  | cons entry rest ih =>
    obtain ⟨key, v⟩ := entry
    have hlast : field k (.obj ((key, v) :: rest)) =
        (field k (.obj rest)).or (if key = k then some v else none) := by
      simp only [field, List.reverse_cons, List.find?_append, List.find?_singleton, Option.map_or]
      by_cases hk : key = k <;> simp [hk]
    rw [canonFields, lookup_insertField hlt (canonFields_ordered hlt rest), hlast]
    by_cases hk : k = key
    · subst hk
      rw [ih]
      cases field k (.obj rest) <;> simp
    · rw [ih]
      cases field k (.obj rest) <;> simp [hk, Ne.symm hk]

/-- Each key of an ordered dictionary is there once, so first and last are one. -/
theorem field_eq_lookup (hlt : KeyOrder lt) {fields : List (Text × Json N)}
    (h : Ordered lt fields) (k : Text) : field k (.obj fields) = lookup k fields := by
  induction fields with
  | nil => rfl
  | cons entry rest ih =>
    obtain ⟨hhead, hrest⟩ := List.pairwise_cons.mp h
    have hlast : field k (.obj (entry :: rest)) =
        (field k (.obj rest)).or (if entry.1 = k then some entry.2 else none) := by
      simp only [field, List.reverse_cons, List.find?_append, List.find?_singleton, Option.map_or]
      by_cases hk : entry.1 = k <;> simp [hk]
    rw [hlast, ih hrest, lookup_cons]
    by_cases hk : entry.1 = k
    · have habsent : lookup k rest = none := by
        refine lookup_eq_none fun f hf heq => ?_
        have hless := hhead f hf
        rw [heq, hk, hlt.irrefl] at hless
        cases hless
      simp [hk, habsent]
    · simp [hk]

/-- The field of a canonical value. -/
theorem field_canon (hlt : KeyOrder lt) (k : Text) (v : Json N) :
    field k (v.canon lt) = (field k v).map (canon lt) := by
  cases v with
  | obj fields =>
    rw [canon, field_eq_lookup hlt (canonFields_ordered hlt fields), lookup_canonFields hlt]
  | null | bool | num | str | arr => rfl

/-- Setting a key after ordering the keys is having the field last in the text. -/
theorem setField_canonFields (hlt : KeyOrder lt) (key : Text) (v : Json N)
    (fields : List (Text × Json N)) :
    setField lt key (v.canon lt) (canonFields lt fields) =
      canonFields lt (fields ++ [(key, v)]) := by
  have hordered := canonFields_ordered hlt fields
  refine ordered_ext hlt (insertField_ordered hlt (eraseKey_ordered hordered))
    (canonFields_ordered hlt _) fun k => ?_
  have hlast : field k (.obj (fields ++ [(key, v)])) =
      if k = key then some v else field k (.obj fields) := by
    simp only [field, List.reverse_append, List.reverse_singleton, List.singleton_append,
      List.find?_cons]
    by_cases hk : k = key
    · simp [hk]
    · simp [hk, Ne.symm hk]
  rw [setField, lookup_insertField hlt (eraseKey_ordered hordered), lookup_eraseKey,
    lookup_eraseKey, lookup_canonFields hlt k, lookup_canonFields hlt k, hlast]
  by_cases hk : k = key <;> simp [hk]

/-- Erasing a key commutes with ordering the keys. -/
theorem eraseKey_canonFields (hlt : KeyOrder lt) (key : Text) (fields : List (Text × Json N)) :
    eraseKey key (canonFields lt fields) = canonFields lt (eraseKey key fields) := by
  refine ordered_ext hlt (eraseKey_ordered (canonFields_ordered hlt fields))
    (canonFields_ordered hlt _) fun k => ?_
  rw [lookup_eraseKey, lookup_canonFields hlt, lookup_canonFields hlt]
  by_cases hk : k = key
  · subst hk
    have habsent : field k (.obj (eraseKey k fields)) = none := by
      simp only [field, Option.map_eq_none_iff, List.find?_eq_none, List.mem_reverse]
      intro f hf
      simpa [eraseKey] using (List.mem_filter.mp hf).2
    simp [habsent]
  · have hsame : field k (.obj (eraseKey key fields)) = field k (.obj fields) := by
      simp only [field, eraseKey, ← List.filter_reverse]
      rw [List.find?_filter]
      congr 2
      funext f
      by_cases hf : f.1 = k
      · simp [hf, hk]
      · simp [hf]
    rw [if_neg hk, hsame]

end Tracewake.JsonText.Json
