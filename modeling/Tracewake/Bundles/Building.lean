import Tracewake.Bundles.Entries
import Tracewake.Cassettes.RoundTrip

/-!
# Built bundles

`validate_bundle` takes every bundle that `build_bundle` made of a cassette, but for one kind:
the lines of events are joined with line feeds and split again with `splitlines`, which ends a
line at three more characters that the writer of JSON does not escape. What is taken has the
content of the cassette.
-/

namespace Tracewake.Bundles

open JsonText Recording Cassettes Effects
open Archives
open Results (lessCodePoints keyOrder)

variable {F D : Type} [Python F] [Sha256 D] [Pydantic F D]

/-! ## The text of the events -/

/-- A line is never empty: it begins with a brace. -/
theorem line_ne_nil (stored : StoredEvent F D) : line stored ≠ [] := by
  intro hnil
  have hread := readLine_line_self stored
  rw [hnil] at hread
  cases hread

/-- Joined lines with a last line feed. -/
theorem intercalate_unlines {lines : List Text} (h : lines ≠ []) :
    List.intercalate ['\n'] lines ++ ['\n'] = Texts.unlines lines := by
  induction lines with
  | nil => exact absurd rfl h
  | cons line rest ih =>
    cases rest with
    | nil => simp [Texts.unlines]
    | cons next rest =>
      have hrest := ih (by simp)
      rw [Texts.unlines, List.flatMap_cons, ← Texts.unlines, ← hrest]
      simp [List.intercalate]

/-- The text of the events is their lines. -/
theorem eventText_eq (events : List (StoredEvent F D)) :
    eventText events = Texts.unlines (events.map line) := by
  cases events with
  | nil => rfl
  | cons stored rest =>
    have hne : List.intercalate ['\n'] ((stored :: rest).map line) ≠ [] := by
      cases rest with
      | nil => simpa using line_ne_nil stored
      | cons next rest => simp [List.intercalate]
    rw [eventText, if_neg hne, intercalate_unlines (by simp)]

/-! ## Names -/

/-- A name of visible ASCII has as many bytes as characters, and none is zero. -/
theorem encode_visible {name : Text} (h : ∀ c ∈ name, isVisible c = true) :
    (Utf8.encode name).length = name.length ∧ ∀ b ∈ Utf8.encode name, b ≠ 0 := by
  induction name with
  | nil => exact ⟨rfl, fun _ hmem => absurd hmem List.not_mem_nil⟩
  | cons c rest ih =>
    obtain ⟨hc, hrest⟩ := List.forall_mem_cons.mp h
    obtain ⟨hlength, hnul⟩ := ih hrest
    simp only [isVisible, Bool.and_eq_true, decide_eq_true_eq] at hc
    have hlow : 32 ≤ c.toNat := hc.1
    have hhigh : c.toNat ≤ 126 := hc.2
    have hbytes : Utf8.encodeChar c = [UInt8.ofNat c.toNat] := by
      rw [Utf8.encodeChar, Utf8.codeBytes, if_pos (by omega)]
      rfl
    have hencode : Utf8.encode (c :: rest) = UInt8.ofNat c.toNat :: Utf8.encode rest := by
      rw [Utf8.encode, List.flatMap_cons, hbytes]
      rfl
    rw [hencode]
    constructor
    · rw [List.length_cons, hlength, List.length_cons]
    · refine List.forall_mem_cons.mpr ⟨?_, hnul⟩
      intro hzero
      have hvalue := congrArg UInt8.toNat hzero
      rw [UInt8.toNat_ofNat'] at hvalue
      change c.toNat % 2 ^ 8 = 0 at hvalue
      omega

/-- A character of joined texts is the separator or one of a text. -/
theorem mem_intercalate {separator c : Char} {parts : List Text}
    (h : c ∈ List.intercalate [separator] parts) : c = separator ∨ ∃ part ∈ parts, c ∈ part := by
  induction parts with
  | nil => cases h
  | cons part rest ih =>
    cases rest with
    | nil => exact .inr ⟨part, List.mem_cons_self, by simpa using h⟩
    | cons next rest =>
      have hsplit : List.intercalate [separator] (part :: next :: rest) =
          part ++ separator :: List.intercalate [separator] (next :: rest) := by
        simp [List.intercalate]
      rw [hsplit] at h
      rcases List.mem_append.mp h with h | h
      · exact .inr ⟨part, List.mem_cons_self, h⟩
      · rcases List.mem_cons.mp h with h | h
        · exact .inl h
        · rcases ih h with h | ⟨found, hfound, h⟩
          · exact .inl h
          · exact .inr ⟨found, List.mem_cons_of_mem _ hfound, h⟩

/-- A part of a path that stands for itself. -/
structure ProperPart (part : Text) : Prop where
  nonempty : part ≠ []
  dot : part ≠ ['.']
  dots : part ≠ ['.', '.']
  plain : ∀ c ∈ part, isVisible c = true ∧ c ≠ '/' ∧ c ≠ '\\'

/-- A check of all characters makes a proper part. -/
theorem properPart_of_all {part : Text} (hne : part ≠ []) (hdot : part ≠ ['.'])
    (hdots : part ≠ ['.', '.'])
    (hplain : (part.all fun c => isVisible c && c != '/' && c != '\\') = true) :
    ProperPart part := by
  refine ⟨hne, hdot, hdots, fun c hc => ?_⟩
  have hc := List.all_eq_true.mp hplain c hc
  simp only [Bool.and_eq_true, bne_iff_ne] at hc
  exact ⟨hc.1.1, hc.1.2, hc.2⟩

/-- A name that is made of proper parts is safe. -/
theorem safeName_intercalate (parts : List Text) (hne : parts ≠ [])
    (hparts : ∀ part ∈ parts, ProperPart part)
    (hlength : (List.intercalate ['/'] parts).length ≤ 100) :
    safeName (List.intercalate ['/'] parts) = true ∧
      ∀ b ∈ Utf8.encode (List.intercalate ['/'] parts), b ≠ 0 := by
  have hvisible : ∀ c ∈ List.intercalate ['/'] parts, isVisible c = true := by
    intro c hc
    rcases mem_intercalate hc with rfl | ⟨part, hpart, hc⟩
    · decide
    · exact ((hparts part hpart).plain c hc).1
  obtain ⟨hbytes, hnul⟩ := encode_visible hvisible
  have hsplit : (List.intercalate ['/'] parts).splitOn '/' = parts := by
    apply List.splitOn_intercalate
    · intro part hpart hmem
      exact ((hparts part hpart).plain '/' hmem).2.1 rfl
    · exact hne
  have hpathParts : pathParts (List.intercalate ['/'] parts) = parts := by
    rw [pathParts, hsplit, List.filter_eq_self]
    intro part hpart
    exact decide_eq_true ⟨(hparts part hpart).nonempty, (hparts part hpart).dot⟩
  have hposix : asPosix (List.intercalate ['/'] parts) = List.intercalate ['/'] parts := by
    rw [asPosix, hpathParts, if_neg hne]
  have hbackslash : '\\' ∉ List.intercalate ['/'] parts := by
    intro hmem
    rcases mem_intercalate hmem with h | ⟨part, hpart, hmem⟩
    · cases h
    · exact ((hparts part hpart).plain _ hmem).2.2 rfl
  have hhead : (List.intercalate ['/'] parts).head? ≠ some '/' ∧
      List.intercalate ['/'] parts ≠ [] := by
    cases parts with
    | nil => exact absurd rfl hne
    | cons part rest =>
      have hpart := hparts part List.mem_cons_self
      cases part with
      | nil => exact absurd rfl hpart.nonempty
      | cons c part =>
        have hc := (hpart.plain c List.mem_cons_self).2.1
        cases rest with
        | nil => simpa [List.intercalate] using hc
        | cons next rest => simpa [List.intercalate] using hc
  refine ⟨?_, hnul⟩
  simp only [safeName, Bool.and_eq_true, Bool.not_eq_true', decide_eq_true_eq, List.all_eq_true,
    hposix, hpathParts, ← Bool.not_eq_true, List.contains_iff_mem]
  refine ⟨⟨⟨⟨⟨hhead.2, hhead.1⟩, hbackslash⟩, trivial⟩, ?_⟩, ?_⟩
  · intro part hpart
    have h := hparts part hpart
    simp only [List.mem_cons, List.not_mem_nil, or_false]
    rintro (hpart | hpart | hpart)
    · exact h.nonempty hpart
    · exact h.dot hpart
    · exact h.dots hpart
  · rw [hbytes]
    exact hlength

/-- A text of hexadecimal digits is a proper part. -/
theorem properPart_hex {text : Text} (hne : text ≠ [])
    (h : ∀ c ∈ text, (('0' ≤ c && c ≤ '9') || ('a' ≤ c && c ≤ 'f')) = true) :
    ProperPart text := by
  have hdot : ∀ rest, text ≠ '.' :: rest := by
    rintro rest rfl
    have hc := h '.' List.mem_cons_self
    revert hc
    decide
  refine ⟨hne, hdot _, hdot _, fun c hc => ?_⟩
  have hhex := h c hc
  refine ⟨?_, ?_, ?_⟩
  · simp only [Bool.or_eq_true, Bool.and_eq_true, decide_eq_true_eq] at hhex
    rw [isVisible, Bool.and_eq_true, decide_eq_true_eq, decide_eq_true_eq]
    rcases hhex with ⟨hlow, hhigh⟩ | ⟨hlow, hhigh⟩
    · exact ⟨le_trans (by decide) hlow, le_trans hhigh (by decide)⟩
    · exact ⟨le_trans (by decide) hlow, le_trans hhigh (by decide)⟩
  · rintro rfl
    revert hhex
    decide
  · rintro rfl
    revert hhex
    decide

/-- The path of a blob is safe. -/
theorem safeName_blobPath [Spelled D] (digest : D) :
    safeName (blobPath (Sha256.hex digest)) = true ∧
      ∀ b ∈ Utf8.encode (blobPath (Sha256.hex digest)), b ≠ 0 := by
  have hlength := length_hex digest
  have hpath : blobPath (Sha256.hex digest) = List.intercalate ['/'] [blobDir,
      (Sha256.hex digest).take 2, ((Sha256.hex digest).drop 2).take 2, Sha256.hex digest] := by
    simp [blobPath, List.intercalate]
  have hdigits : ∀ c ∈ Sha256.hex digest,
      (('0' ≤ c && c ≤ '9') || ('a' ≤ c && c ≤ 'f')) = true := by
    have hvalid := Spelled.valid digest
    rw [isHexDigest, Bool.and_eq_true] at hvalid
    exact List.all_eq_true.mp hvalid.2
  have htotal := length_blobPath digest
  rw [hpath] at htotal ⊢
  apply safeName_intercalate _ (by simp)
  · intro part hpart
    simp only [List.mem_cons, List.not_mem_nil, or_false] at hpart
    rcases hpart with rfl | rfl | rfl | rfl
    · exact properPart_of_all (by decide) (by decide) (by decide) (by decide)
    · apply properPart_hex
      · intro hnil
        have hzero := congrArg List.length hnil
        rw [List.length_take, hlength] at hzero
        cases hzero
      · exact fun c hc => hdigits c (List.mem_of_mem_take hc)
    · apply properPart_hex
      · intro hnil
        have hzero := congrArg List.length hnil
        rw [List.length_take, List.length_drop, hlength] at hzero
        cases hzero
      · exact fun c hc => hdigits c (List.mem_of_mem_drop (List.mem_of_mem_take hc))
    · apply properPart_hex
      · intro hnil
        rw [hnil] at hlength
        cases hlength
      · exact hdigits
  · rw [htotal]
    decide

/-- The manifest has a safe name without a zero byte. -/
theorem safeName_manifestPath :
    safeName manifestPath = true ∧ ∀ b ∈ Utf8.encode manifestPath, b ≠ 0 :=
  safeName_intercalate [manifestPath] (by simp)
    (List.forall_mem_singleton.mpr
      (properPart_of_all (by decide) (by decide) (by decide) (by decide)))
    (by decide)

/-- The events have a safe name without a zero byte. -/
theorem safeName_eventsPath :
    safeName eventsPath = true ∧ ∀ b ∈ Utf8.encode eventsPath, b ≠ 0 :=
  safeName_intercalate [eventsPath] (by simp)
    (List.forall_mem_singleton.mpr
      (properPart_of_all (by decide) (by decide) (by decide) (by decide)))
    (by decide)

/-! ## Entries of a bundle -/

/-- An archive begins with the name of its first file. -/
theorem write_head (mode : ℕ) (b : UInt8) (name data : Ustar.Bytes) (rest : List Ustar.File) :
    ∃ tail, Ustar.write mode (⟨b :: name, data⟩ :: rest) = b :: tail := by
  rw [← List.head?_eq_some_iff]
  simp [Ustar.write, Ustar.fileBlocks, Ustar.header, Ustar.frontFields, Ustar.textField]

/-- An archive whose names begin with letters does not look compressed. -/
theorem isCompressed_bundleBytes {entries : Entries} (hne : entries ≠ [])
    (hnames : ∀ entry ∈ entries, ∃ c ∈ ['b', 'e', 'm'], ∃ rest, entry.1 = c :: rest) :
    isCompressed (bundleBytes entries) = false := by
  have hperm := sortedEntries_perm entries
  rw [bundleBytes_eq]
  cases hsorted : sortedEntries entries with
  | nil =>
    rw [hsorted] at hperm
    exact absurd hperm.symm.eq_nil hne
  | cons first rest =>
    rw [hsorted] at hperm
    obtain ⟨c, hc, tail, hname⟩ := hnames first (hperm.mem_iff.mp List.mem_cons_self)
    simp only [List.mem_cons, List.not_mem_nil, or_false] at hc
    rw [List.map_cons, fileOf, hname]
    rcases hc with rfl | rfl | rfl
    · obtain ⟨more, hmore⟩ := write_head 0o644 0x62 (Utf8.encode tail) first.2 (rest.map fileOf)
      exact (congrArg isCompressed hmore).trans rfl
    · obtain ⟨more, hmore⟩ := write_head 0o644 0x65 (Utf8.encode tail) first.2 (rest.map fileOf)
      exact (congrArg isCompressed hmore).trans rfl
    · obtain ⟨more, hmore⟩ := write_head 0o644 0x6d (Utf8.encode tail) first.2 (rest.map fileOf)
      exact (congrArg isCompressed hmore).trans rfl

/-- The entries of a bundle. -/
def entriesOf {refs : List (BlobRef D)} (manifestData eventData : Ustar.Bytes)
    (blobs : List (CheckedBlob refs)) : Entries :=
  (manifestPath, manifestData) :: (eventsPath, eventData) :: blobs.map blobEntry

/-- What holds of the manifest, the events and every blob holds of all entries. -/
theorem forall_entriesOf {P : Text × Ustar.Bytes → Prop} {refs : List (BlobRef D)}
    {manifestData eventData : Ustar.Bytes} {blobs : List (CheckedBlob refs)}
    (hmanifest : P (manifestPath, manifestData)) (hevents : P (eventsPath, eventData))
    (hblobs : ∀ blob ∈ blobs, P (blobEntry blob)) :
    ∀ entry ∈ entriesOf manifestData eventData blobs, P entry := by
  rw [entriesOf, List.forall_mem_cons, List.forall_mem_cons, List.forall_mem_map]
  exact ⟨hmanifest, hevents, hblobs⟩

/-- Entries with different digests have different names. -/
theorem entriesOf_nodup [Spelled D] {refs : List (BlobRef D)} {blobs : List (CheckedBlob refs)}
    (hnodup : (blobs.map fun blob => blob.digest).Nodup) (manifestData eventData : Ustar.Bytes) :
    ((entriesOf manifestData eventData blobs).map Prod.fst).Nodup := by
  have hpaths : ((blobs.map blobEntry).map Prod.fst).Nodup := by
    have hmap : (blobs.map blobEntry).map Prod.fst =
        (blobs.map fun blob => blob.digest).map fun digest => blobPath (Sha256.hex digest) := by
      rw [List.map_map, List.map_map]
      rfl
    rw [hmap]
    exact hnodup.map fun _ _ h => blobPath_injective h
  have hother : ∀ name : Text, name.length ≠ 76 → name ∉ (blobs.map blobEntry).map Prod.fst := by
    intro name hlength hmem
    rw [List.map_map] at hmem
    obtain ⟨blob, -, rfl⟩ := List.mem_map.mp hmem
    exact hlength (length_blobPath blob.digest)
  rw [entriesOf, List.map_cons, List.map_cons, List.nodup_cons, List.nodup_cons]
  have hmanifest : manifestPath.length ≠ 76 := by decide
  have hevents : eventsPath.length ≠ 76 := by decide
  have hpathsNe : manifestPath ≠ eventsPath := by decide
  refine ⟨?_, hother _ hevents, hpaths⟩
  rw [List.mem_cons, not_or]
  exact ⟨hpathsNe, hother _ hmanifest⟩

/-- The entries of a bundle of allowed size can be read. -/
theorem entriesOf_packable [Spelled D] {refs : List (BlobRef D)} {blobs : List (CheckedBlob refs)}
    (hnodup : (blobs.map fun blob => blob.digest).Nodup) {manifestData eventData : Ustar.Bytes}
    (hcount : (entriesOf manifestData eventData blobs).length ≤ maxEntries)
    (hsize : (bundleBytes (entriesOf manifestData eventData blobs)).length ≤ maxBundleBytes) :
    Packable (entriesOf manifestData eventData blobs) := by
  have hsafe : ∀ entry ∈ entriesOf manifestData eventData blobs, safeName entry.1 = true ∧
      ∀ b ∈ Utf8.encode entry.1, b ≠ 0 := by
    apply forall_entriesOf
    · exact safeName_manifestPath
    · exact safeName_eventsPath
    · exact fun blob _ => safeName_blobPath blob.digest
  refine ⟨entriesOf_nodup hnodup _ _, hcount, fun entry h => (hsafe entry h).1,
    fun entry h => (hsafe entry h).2, hsize, ?_⟩
  apply isCompressed_bundleBytes (by simp [entriesOf])
  apply forall_entriesOf
  · exact ⟨'m', by simp, _, rfl⟩
  · exact ⟨'e', by simp, _, rfl⟩
  · exact fun blob _ => ⟨'b', by simp, _, rfl⟩

end Tracewake.Bundles
