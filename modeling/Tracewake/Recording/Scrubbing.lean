import Tracewake.Recording.Redaction
import Tracewake.Texts.Marks
import Tracewake.Texts.Pieces

/-!
# What redaction does to texts and values

`text` is a chain of replacements of texts, so the rules for those say what it removes,
what a placeholder completes again and when doing it again changes nothing. `_walk` hands
the strings of a value to `text` one by one, leaves the keys alone and drops what is under
a filtered key.
-/

namespace Tracewake.Recording

open JsonText Texts
open Results (lessCodePoints keyOrder)

variable {F D : Type} [Python F]

/-- `HOME_PLACEHOLDER`. -/
def homePlaceholder : Text := "<HOME>".toList

/-- `MIN_SECRET_LENGTH`. -/
def minSecretLength : ℕ := 8

/-! ## Texts -/

/-- Characters of a match that are still ahead are dropped. -/
theorem replaceFrom_eq (old new : Text) (skip : ℕ) (text : Text) :
    replaceFrom old new skip text = replace old new (text.drop skip) := by
  induction text generalizing skip with
  | nil =>
    rw [List.drop_nil, replace]
    cases skip <;> rfl
  | cons c rest ih =>
    cases skip with
    | zero => rfl
    | succ skip => exact ih skip

/-- `str.replace` replaces the occurrences from the left. -/
theorem replaces_replace {old : Text} (hold : old ≠ []) (new text : Text) :
    Replaces old new text (replace old new text) := by
  induction hlength : text.length using Nat.strong_induction_on generalizing text with
  | _ n ih =>
    subst hlength
    cases text with
    | nil => exact .nil
    | cons c rest =>
      by_cases hfound : old <+: c :: rest
      · obtain ⟨after, hafter⟩ := hfound
        have hpos := List.length_pos_of_ne_nil hold
        have hlength := congrArg List.length hafter
        rw [List.length_append, List.length_cons] at hlength
        have hdrop : rest.drop (old.length - 1) = after := by
          have hsucc : old.length = old.length - 1 + 1 := by omega
          have hall : (c :: rest).drop old.length = after := by
            rw [← hafter, List.drop_left]
          rwa [hsucc, List.drop_succ_cons] at hall
        have hout : replace old new (c :: rest) = new ++ replace old new after := by
          rw [replace, replaceFrom, if_pos (List.isPrefixOf_iff_prefix.mpr ⟨after, hafter⟩),
            replaceFrom_eq, hdrop]
        rw [hout, ← hafter]
        refine .found (ih after.length ?_ after rfl)
        rw [List.length_cons]
        omega
      · have hout : replace old new (c :: rest) = c :: replace old new rest := by
          rw [replace, replaceFrom, if_neg fun hbegins =>
            hfound (List.isPrefixOf_iff_prefix.mp hbegins)]
          rfl
        rw [hout]
        exact .skip hfound (ih rest.length (by simp) rest rfl)

namespace Redactor

variable {redactor : Redactor F D}

/-- What `_collect_values` and `_collect_paths` leave in a redactor. -/
structure Collected (redactor : Redactor F D) : Prop where
  long : ∀ secret ∈ redactor.values, minSecretLength ≤ secret.length
  longestFirst : redactor.values.Pairwise fun a b => b.length ≤ a.length
  home : redactor.paths = [] ∨
    ∃ home, home ≠ [] ∧ home ≠ "/".toList ∧ redactor.paths = [(home, homePlaceholder)]

/-- What `text` replaces, in its order. -/
def replacements (redactor : Redactor F D) : List (Text × Text) :=
  if redactor.enabled then
    redactor.values.map (fun secret => (secret, redacted)) ++ redactor.paths
  else []

/-- What a redactor replaces is never empty. -/
theorem Collected.nonempty (h : redactor.Collected) : ∀ r ∈ redactor.replacements, r.1 ≠ [] := by
  intro r hr
  rw [replacements] at hr
  split at hr
  case isFalse => cases hr
  rcases List.mem_append.mp hr with hr | hr
  · obtain ⟨secret, hsecret, rfl⟩ := List.mem_map.mp hr
    have hlong := h.long secret hsecret
    intro hempty
    rw [show secret = [] from hempty] at hlong
    exact absurd hlong (by decide)
  · rcases h.home with hnone | ⟨home, hhome, -, hpaths⟩
    · rw [hnone] at hr
      cases hr
    · rw [hpaths, List.mem_singleton] at hr
      rw [hr]
      exact hhome

/-- Replacing one after the other is a chain of replacements. -/
theorem replacesAll_foldl {rs : List (Text × Text)} (hold : ∀ r ∈ rs, r.1 ≠ []) (text : Text) :
    ReplacesAll rs text (rs.foldl (fun text r => replace r.1 r.2 text) text) := by
  induction rs generalizing text with
  | nil => exact .nil
  | cons r rs ih =>
    refine .cons (replaces_replace (hold r List.mem_cons_self) r.2 text) (ih ?_ _)
    exact fun r' hr' => hold r' (List.mem_cons_of_mem r hr')

/-- `text` is the chain of the redactor's replacements. -/
theorem text_replaces (hcollected : redactor.Collected) (value : Text) :
    ReplacesAll redactor.replacements value (redactor.text value) := by
  have hchain := replacesAll_foldl hcollected.nonempty value
  rw [replacements] at hchain ⊢
  rw [text]
  split
  · next henabled =>
    rw [if_pos henabled, List.foldl_append, List.foldl_map] at hchain
    exact hchain
  · exact .nil

/-- Nothing in the text is changed. -/
def Clean (redactor : Redactor F D) (value : Text) : Prop :=
  ∀ r ∈ redactor.replacements, r.1 = r.2 ∨ ¬ r.1 <:+: value

instance (redactor : Redactor F D) (value : Text) : Decidable (redactor.Clean value) :=
  inferInstanceAs (Decidable (∀ r ∈ redactor.replacements, r.1 = r.2 ∨ ¬ r.1 <:+: value))

/-- A clean text is not changed. -/
theorem text_of_clean (hcollected : redactor.Collected) {value : Text}
    (hclean : redactor.Clean value) : redactor.text value = value :=
  (text_replaces hcollected value).unchanged hclean

/-- A collected secret is replaced by the placeholder. -/
theorem mem_replacements (henabled : redactor.enabled = true) {secret : Text}
    (hsecret : secret ∈ redactor.values) : (secret, redacted) ∈ redactor.replacements := by
  rw [replacements, if_pos henabled]
  exact List.mem_append_left _ (List.mem_map_of_mem hsecret)

/-- The placeholders are never empty. -/
theorem Collected.placeholders (h : redactor.Collected) : ∀ r ∈ redactor.replacements, r.2 ≠ [] := by
  intro r hr
  rw [replacements] at hr
  split at hr
  case isFalse => cases hr
  rcases List.mem_append.mp hr with hr | hr
  · obtain ⟨secret, -, rfl⟩ := List.mem_map.mp hr
    exact List.cons_ne_nil _ _
  · rcases h.home with hnone | ⟨home, -, -, hpaths⟩
    · rw [hnone] at hr
      cases hr
    · rw [hpaths, List.mem_singleton] at hr
      rw [hr]
      exact List.cons_ne_nil _ _

/-- A text that is changed holds a bracket of a placeholder. -/
theorem text_eq_or_mem (hcollected : redactor.Collected) (value : Text) :
    redactor.text value = value ∨ '[' ∈ redactor.text value ∨ '<' ∈ redactor.text value := by
  refine (text_replaces hcollected value).eq_or_inserted.imp_right ?_
  rintro ⟨r, hr, hin⟩
  rw [replacements] at hr
  split at hr
  case isFalse => cases hr
  rcases List.mem_append.mp hr with hr | hr
  · obtain ⟨secret, -, rfl⟩ := List.mem_map.mp hr
    exact .inl (hin.subset (show '[' ∈ redacted by decide))
  · rcases hcollected.home with hnone | ⟨home, -, -, hpaths⟩
    · rw [hnone] at hr
      cases hr
    · rw [hpaths, List.mem_singleton] at hr
      subst hr
      exact .inr (hin.subset (show '<' ∈ homePlaceholder by decide))

/-- A placeholder that `text` inserts and the characters around it make up the secret. -/
abbrev Completes (redactor : Redactor F D) (secret value : Text) : Prop :=
  Completed secret (markAll redactor.replacements (kept value))

/-- The secret is replaced wherever it is, so it is in the redacted text only where a
placeholder completes it. -/
theorem infix_text_iff (hcollected : redactor.Collected) (henabled : redactor.enabled = true)
    {secret : Text} (hsecret : secret ∈ redactor.values) (value : Text) :
    secret <:+: redactor.text value ↔ redactor.Completes secret value :=
  infix_iff_completed hcollected.nonempty hcollected.placeholders
    (mem_replacements henabled hsecret) (text_replaces hcollected value)

/-- Nothing that `text` replaces is completed by a placeholder that it inserts. -/
abbrev Stays (redactor : Redactor F D) (value : Text) : Prop :=
  Texts.Stays redactor.replacements value

/-- Where something is completed, what the second pass changes first it puts back later. -/
abbrev Restored (redactor : Redactor F D) (value : Text) : Prop :=
  Texts.Restored redactor.replacements value (redactor.text value)

/-- Redacting a text again changes nothing exactly where nothing was completed, or where the
second pass puts everything back. -/
theorem text_text_iff (hcollected : redactor.Collected) (value : Text) :
    redactor.text (redactor.text value) = redactor.text value ↔
      redactor.Stays value ∨ redactor.Restored value :=
  Texts.idempotent_iff hcollected.nonempty hcollected.placeholders
    (text_replaces hcollected value) (text_replaces hcollected _)

/-- What is removed cannot overlap a placeholder that is inserted with it or later. -/
abbrev Settled (redactor : Redactor F D) : Prop :=
  Texts.Settled redactor.replacements

/-- Where nothing can overlap a placeholder, nothing is completed by one. -/
theorem Settled.stays (hcollected : redactor.Collected) (hsettled : redactor.Settled)
    (value : Text) : redactor.Stays value :=
  Texts.Settled.stays hcollected.nonempty hcollected.placeholders hsettled
    (text_replaces hcollected value)

/-- What is removed can overlap no placeholder. -/
abbrev Separate (redactor : Redactor F D) : Prop :=
  Texts.Separate redactor.replacements

/-- Everything that `text` replaces in the joined pieces lies within one of them. -/
abbrev WithinPieces (redactor : Redactor F D) (pieces : List Text) : Prop :=
  WithinAll redactor.replacements pieces

/-- A text is redacted in its pieces if what is replaced lies within them. -/
theorem text_flatten (hcollected : redactor.Collected) {pieces : List Text}
    (hwithin : redactor.WithinPieces pieces) :
    (pieces.map redactor.text).flatten = redactor.text pieces.flatten := by
  have hpieces : List.Forall₂ (ReplacesAll redactor.replacements) pieces
      (pieces.map redactor.text) := by
    rw [List.forall₂_map_right_iff]
    exact List.forall₂_same.mpr fun piece _ => text_replaces hcollected piece
  have hwhole := ReplacesAll.flatten hcollected.nonempty hwithin hpieces
  exact hwhole.unique hcollected.nonempty (text_replaces hcollected _)

/-! ## Values -/

mutual

/-- The strings that `_walk` hands to `text`. -/
def reached (redactor : Redactor F D) : Value F → List Text
  | .str s => [s]
  | .obj fields => reachedFields redactor fields
  | .arr items => reachedItems redactor items
  | _ => []

def reachedFields (redactor : Redactor F D) : List (Text × Value F) → List Text
  | [] => []
  | (key, value) :: rest =>
    (if redactor.isFilteredKey key then [] else reached redactor value) ++
      reachedFields redactor rest

def reachedItems (redactor : Redactor F D) : List (Value F) → List Text
  | [] => []
  | value :: rest => reached redactor value ++ reachedItems redactor rest

end

mutual

/-- The keys that `_walk` copies: all but those in a value that it drops. -/
def keys (redactor : Redactor F D) : Value F → List Text
  | .obj fields => keysFields redactor fields
  | .arr items => keysItems redactor items
  | _ => []

def keysFields (redactor : Redactor F D) : List (Text × Value F) → List Text
  | [] => []
  | (key, value) :: rest =>
    key :: ((if redactor.isFilteredKey key then [] else keys redactor value) ++
      keysFields redactor rest)

def keysItems (redactor : Redactor F D) : List (Value F) → List Text
  | [] => []
  | value :: rest => keys redactor value ++ keysItems redactor rest

end

/-- A text is reached in fields if it is reached in a field that is not filtered. -/
theorem mem_reachedFields {fields : List (Text × Value F)} {s : Text} :
    s ∈ redactor.reachedFields fields ↔
      ∃ f ∈ fields, redactor.isFilteredKey f.1 = false ∧ s ∈ redactor.reached f.2 := by
  induction fields with
  | nil => simp [reachedFields]
  | cons f rest ih =>
    obtain ⟨key, value⟩ := f
    cases hkey : redactor.isFilteredKey key <;> simp [reachedFields, hkey, ih]

/-- A text is reached in items if it is reached in one of them. -/
theorem mem_reachedItems {items : List (Value F)} {s : Text} :
    s ∈ redactor.reachedItems items ↔ ∃ value ∈ items, s ∈ redactor.reached value := by
  induction items with
  | nil => simp [reachedItems]
  | cons value rest ih => simp [reachedItems, ih]

/-- A key is met in fields if it is a key of them or met in a field that is not filtered. -/
theorem mem_keysFields {fields : List (Text × Value F)} {k : Text} :
    k ∈ redactor.keysFields fields ↔
      ∃ f ∈ fields, k = f.1 ∨ redactor.isFilteredKey f.1 = false ∧ k ∈ redactor.keys f.2 := by
  induction fields with
  | nil => simp [keysFields]
  | cons f rest ih =>
    obtain ⟨key, value⟩ := f
    cases hkey : redactor.isFilteredKey key <;> simp [keysFields, hkey, ih, or_assoc]

/-- A key is met in items if it is met in one of them. -/
theorem mem_keysItems {items : List (Value F)} {k : Text} :
    k ∈ redactor.keysItems items ↔ ∃ value ∈ items, k ∈ redactor.keys value := by
  induction items with
  | nil => simp [keysItems]
  | cons value rest ih => simp [keysItems, ih]

/-- Redacting a value again changes nothing exactly when this is so for its strings. -/
theorem walk_walk_iff (value : Value F) :
    redactor.walk (redactor.walk value) = redactor.walk value ↔
      ∀ s ∈ redactor.reached value, redactor.text (redactor.text s) = redactor.text s := by
  induction value using Json.induction with
  | null | bool | num => simp [walk, reached]
  | str s => simp [walk, reached]
  | arr items ih =>
    simp only [walk, walkItems_eq, List.map_map, Json.arr.injEq, List.map_inj_left,
      Function.comp_apply, reached, mem_reachedItems]
    constructor
    · rintro h s ⟨item, hitem, hs⟩
      exact (ih item hitem).mp (h item hitem) s hs
    · intro h item hitem
      exact (ih item hitem).mpr fun s hs => h s ⟨item, hitem, hs⟩
  | obj fields ih =>
    simp only [walk, walkFields_eq, List.map_map, Json.obj.injEq, List.map_inj_left,
      Function.comp_apply, reached, mem_reachedFields]
    constructor
    · rintro h s ⟨f, hf, hkey, hs⟩
      have hvalue := h f hf
      simp only [hkey, Bool.false_eq_true, ↓reduceIte, Prod.mk.injEq, true_and] at hvalue
      exact (ih f hf).mp hvalue s hs
    · intro h f hf
      cases hkey : redactor.isFilteredKey f.1 with
      | true => simp
      | false =>
        simp only [Bool.false_eq_true, ↓reduceIte, Prod.mk.injEq, true_and]
        exact (ih f hf).mpr fun s hs => h s ⟨f, hf, hkey, hs⟩

/-- A value without filtered keys stays when its strings do. -/
theorem walk_eq_self {value : Value F} (hkeys : ∀ k ∈ redactor.keys value,
    redactor.isFilteredKey k = false)
    (h : ∀ s ∈ redactor.reached value, redactor.text s = s) : redactor.walk value = value := by
  induction value using Json.induction with
  | null | bool | num => rfl
  | str s => simp only [walk, h s (by simp [reached])]
  | arr items ih =>
    simp only [walk, walkItems_eq, Json.arr.injEq]
    refine (List.map_congr_left fun value hvalue => ?_).trans (List.map_id' items)
    exact ih value hvalue (fun k hk => hkeys k (mem_keysItems.mpr ⟨value, hvalue, hk⟩))
      fun s hs => h s (mem_reachedItems.mpr ⟨value, hvalue, hs⟩)
  | obj fields ih =>
    simp only [walk, walkFields_eq, Json.obj.injEq]
    refine (List.map_congr_left fun f hf => ?_).trans (List.map_id' fields)
    have hkey : redactor.isFilteredKey f.1 = false :=
      hkeys f.1 (mem_keysFields.mpr ⟨f, hf, .inl rfl⟩)
    have hvalue := ih f hf
      (fun k hk => hkeys k (mem_keysFields.mpr ⟨f, hf, .inr ⟨hkey, hk⟩⟩))
      fun s hs => h s (mem_reachedFields.mpr ⟨f, hf, hkey, hs⟩)
    simp only [hkey, Bool.false_eq_true, ↓reduceIte, hvalue]

/-- A text that is no part of the placeholder is in a redacted value where a key or a
redacted string holds it. -/
theorem walk_mentions {secret : Text} (hredacted : ¬ secret <:+: redacted) (value : Value F) :
    (∃ s ∈ (redactor.walk value).strings, secret <:+: s) ↔
      (∃ k ∈ redactor.keys value, secret <:+: k) ∨
        ∃ s ∈ redactor.reached value, secret <:+: redactor.text s := by
  induction value using Json.induction with
  | null | bool | num => simp [walk, Json.strings, keys, reached]
  | str s => simp [walk, Json.strings, keys, reached]
  | arr items ih =>
    simp only [walk, walkItems_eq, Json.strings, Json.mem_stringsItems, keys, mem_keysItems,
      reached, mem_reachedItems]
    constructor
    · rintro ⟨s, ⟨_, hitem, hs⟩, hsecret⟩
      obtain ⟨item, hmem, rfl⟩ := List.mem_map.mp hitem
      rcases (ih item hmem).mp ⟨s, hs, hsecret⟩ with ⟨k, hk, hin⟩ | ⟨t, ht, hin⟩
      · exact .inl ⟨k, ⟨item, hmem, hk⟩, hin⟩
      · exact .inr ⟨t, ⟨item, hmem, ht⟩, hin⟩
    · rintro (⟨k, ⟨item, hmem, hk⟩, hin⟩ | ⟨t, ⟨item, hmem, ht⟩, hin⟩)
      · obtain ⟨s, hs, hsecret⟩ := (ih item hmem).mpr (.inl ⟨k, hk, hin⟩)
        exact ⟨s, ⟨_, List.mem_map_of_mem hmem, hs⟩, hsecret⟩
      · obtain ⟨s, hs, hsecret⟩ := (ih item hmem).mpr (.inr ⟨t, ht, hin⟩)
        exact ⟨s, ⟨_, List.mem_map_of_mem hmem, hs⟩, hsecret⟩
  | obj fields ih =>
    simp only [walk, walkFields_eq, Json.strings, Json.mem_stringsFields, keys, mem_keysFields,
      reached, mem_reachedFields]
    constructor
    · rintro ⟨s, ⟨_, hfield, hs⟩, hsecret⟩
      obtain ⟨f, hmem, rfl⟩ := List.mem_map.mp hfield
      rcases hs with rfl | hs
      · exact .inl ⟨f.1, ⟨f, hmem, .inl rfl⟩, hsecret⟩
      · cases hkey : redactor.isFilteredKey f.1 with
        | true =>
          simp only [hkey, ↓reduceIte, Json.strings, List.mem_singleton] at hs
          exact absurd (hs ▸ hsecret) hredacted
        | false =>
          simp only [hkey, Bool.false_eq_true, ↓reduceIte] at hs
          rcases (ih f hmem).mp ⟨s, hs, hsecret⟩ with ⟨k, hk, hin⟩ | ⟨t, ht, hin⟩
          · exact .inl ⟨k, ⟨f, hmem, .inr ⟨hkey, hk⟩⟩, hin⟩
          · exact .inr ⟨t, ⟨f, hmem, hkey, ht⟩, hin⟩
    · -- what is found under a key that is not filtered is in the walked value of the field
      have hunder {f : Text × Value F} (hmem : f ∈ fields) (hkey : redactor.isFilteredKey f.1 = false)
          (h : (∃ k ∈ redactor.keys f.2, secret <:+: k) ∨
            ∃ s ∈ redactor.reached f.2, secret <:+: redactor.text s) :
          ∃ s, (∃ field ∈ fields.map fun field => (field.1, if redactor.isFilteredKey field.1
            then .str redacted else redactor.walk field.2), s = field.1 ∨ s ∈ field.2.strings) ∧
              secret <:+: s := by
        obtain ⟨s, hs, hsecret⟩ := (ih f hmem).mpr h
        refine ⟨s, ⟨_, List.mem_map_of_mem hmem, .inr ?_⟩, hsecret⟩
        simpa only [hkey, Bool.false_eq_true, ↓reduceIte] using hs
      rintro (⟨k, ⟨f, hmem, rfl | ⟨hkey, hk⟩⟩, hin⟩ | ⟨t, ⟨f, hmem, hkey, ht⟩, hin⟩)
      · exact ⟨f.1, ⟨_, List.mem_map_of_mem hmem, .inl rfl⟩, hin⟩
      · exact hunder hmem hkey (.inl ⟨k, hk, hin⟩)
      · exact hunder hmem hkey (.inr ⟨t, ht, hin⟩)

end Redactor

end Tracewake.Recording
