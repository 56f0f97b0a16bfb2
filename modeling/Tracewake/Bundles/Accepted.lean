import Tracewake.Bundles.Bundle

/-!
# Accepted bundles

Exactly what `validate_bundle` has seen when it accepts: the entries of the archive, the
canonical manifest, the text of the events with its lines, and the bytes of the blobs.
-/

namespace Tracewake.Bundles

open JsonText Recording Cassettes Effects
open Archives
open Results (lessCodePoints keyOrder)

variable {F D : Type} [Python F] [Sha256 D] [Pydantic F D] [DecidableEq D]

/-- What the archive of an accepted bundle holds. -/
structure Parts (raw : Ustar.Bytes) (bundle : ValidatedBundle F D) (entries : Entries)
    (eventData : Ustar.Bytes) (text : Text) : Prop where
  size : raw.length ≤ maxBundleBytes
  read : readEntries (D := D) raw = .ok entries
  manifest : entries.find manifestPath = some (canonicalJsonBytes F bundle.manifest)
  events : entries.find eventsPath = some eventData
  declaredEvents : bundle.manifest.events = ⟨eventsPath, Sha256.hash eventData, eventData.length⟩
  eventBytes : eventData.length ≤ maxEventBytes
  decoded : Utf8.decode none eventData = some text
  lastLine : text = [] ∨ text.getLast? = some '\n'
  lines : Texts.splitlines text = bundle.events.map line
  names : SameMembers (entries.map Prod.fst)
    (manifestPath :: eventsPath :: bundle.manifest.blobs.map fun blob => blob.path)
  blobs : ∀ blob ∈ bundle.blobs,
    entries.find (blobPath (Sha256.hex blob.digest)) = some blob.data
  bundleDigest : bundle.bundleDigest = Sha256.hash raw
  bundleSize : bundle.size = raw.length

omit [DecidableEq D] in
/-- The lines of events in sequence are parsed as these events. -/
theorem parseLines_eq {runId : Text} {events : List (StoredEvent F D)} {number : ℕ}
    {lines : List Text} (hlines : lines = events.map line)
    (hrun : ∀ stored ∈ events, stored.runId = runId)
    (hseqs : (events.map fun stored => stored.seq) =
      (List.range' number events.length).map Nat.cast) :
    ∃ parsed, parseLines runId number lines = .ok parsed ∧ parsed.1 = events := by
  subst hlines
  have hfacts : events.map line = events.map line ∧ (∀ stored ∈ events, stored.runId = runId) ∧
      (events.map fun stored => stored.seq) =
        (List.range' number (events.map line).length).map Nat.cast := by
    rw [List.length_map]
    exact ⟨rfl, hrun, hseqs⟩
  refine ⟨⟨events, hfacts⟩, ?_, rfl⟩
  induction events generalizing number with
  | nil => rfl
  | cons stored rest ih =>
    obtain ⟨hstored, hrest⟩ := List.forall_mem_cons.mp hrun
    obtain ⟨id, seq, event⟩ := stored
    dsimp only at hstored
    subst hstored
    rw [List.length_cons, List.range'_succ, List.map_cons, List.map_cons, List.cons.injEq] at hseqs
    have hread := readLine_line_self (⟨id, seq, event⟩ : StoredEvent F D)
    change parseLines id number (line ⟨id, seq, event⟩ :: rest.map line) = _
    rw [parseLines, accepts_required]
    refine ⟨(seq, event), hread, ?_⟩
    dsimp only
    rw [accepts_check]
    refine ⟨hseqs.1, ?_⟩
    rw [accepts_check]
    refine ⟨rfl, ?_⟩
    rw [ih hrest hseqs.2 ⟨rfl, hrest, by rw [List.length_map]; exact hseqs.2⟩]
    rfl

/-- Declared blobs that are there are returned. -/
theorem checkDeclared_eq {entries : Entries} {refs : List (BlobRef D)}
    {blobs : List (CheckedBlob refs)} {declarations : List (BlobEntry D)}
    (hdeclared : (blobs.map fun blob => (blob.digest, blob.data.length)) =
      declarations.map fun blob => (blob.digest, blob.size))
    (hfind : ∀ blob ∈ blobs,
      entries.find (blobPath (Sha256.hex blob.digest)) = some blob.data) :
    ∃ found, checkDeclared entries refs declarations = .ok found ∧ found.1 = blobs := by
  induction blobs generalizing declarations with
  | nil =>
    obtain rfl := List.map_eq_nil_iff.mp hdeclared.symm
    exact ⟨_, rfl, rfl⟩
  | cons blob rest ih =>
    cases declarations with
    | nil => cases hdeclared
    | cons declaration declarations =>
      rw [List.map_cons, List.map_cons, List.cons.injEq, Prod.mk.injEq] at hdeclared
      obtain ⟨⟨hdigest, hsize⟩, hdeclared⟩ := hdeclared
      obtain ⟨hblob, hrest⟩ := List.forall_mem_cons.mp hfind
      obtain ⟨⟨found, hfacts⟩, hfound, heq⟩ := ih hdeclared hrest
      change found = rest at heq
      subst heq
      obtain ⟨digest, data, hhash, hsized⟩ := blob
      dsimp only at hdigest hsize hblob
      subst hdigest
      have hdata : entries.find declaration.path = some data := by
        rw [declaration.canonicalPath, hblob]
      have hchecked : data.length = declaration.size ∧ Sha256.hash data = declaration.digest :=
        ⟨hsize, hhash⟩
      rw [checkDeclared, hdata]
      simp only [required]
      change ∃ result, (check _ _ >>= _) = _ ∧ _
      rw [check_of hchecked]
      change ∃ result, (check _ _ >>= _) = _ ∧ _
      rw [check_of hsized]
      change ∃ result, (checkDeclared entries refs declarations >>= _) = _ ∧ _
      rw [hfound]
      exact ⟨_, rfl, rfl⟩

/-- What was returned for the declarations is there. -/
theorem find_of_checkDeclared {entries : Entries} {refs : List (BlobRef D)}
    {declarations : List (BlobEntry D)} {found : {blobs : List (CheckedBlob refs) //
      (blobs.map fun blob => (blob.digest, blob.data.length)) =
        declarations.map fun blob => (blob.digest, blob.size)}}
    (h : checkDeclared entries refs declarations = .ok found) :
    ∀ blob ∈ found.1, entries.find (blobPath (Sha256.hex blob.digest)) = some blob.data := by
  induction declarations with
  | nil =>
    cases h
    exact fun _ hmem => absurd hmem List.not_mem_nil
  | cons declaration declarations ih =>
    rw [checkDeclared, accepts_required] at h
    obtain ⟨data, hdata, h⟩ := h
    rw [accepts_check] at h
    obtain ⟨hblob, h⟩ := h
    rw [accepts_check] at h
    obtain ⟨hsized, h⟩ := h
    rw [accepts_bind] at h
    obtain ⟨⟨rest, hfacts⟩, hrest, heq⟩ := h
    cases heq
    refine List.forall_mem_cons.mpr ⟨?_, ih hrest⟩
    rw [declaration.canonicalPath] at hdata
    exact hdata

omit [DecidableEq D] in
/-- What `_parse_events` has seen. -/
theorem parseEvents_eq_ok {manifest : BundleManifest D} {raw : Ustar.Bytes}
    {parsed : {events : List (StoredEvent F D) // InSequence events ∧
      (∀ stored ∈ events, stored.runId = manifest.runId) ∧
        events.length = manifest.eventCount}} :
    parseEvents manifest raw = .ok parsed ↔ raw.length ≤ maxEventBytes ∧
      ∃ text, Utf8.decode none raw = some text ∧ (text = [] ∨ text.getLast? = some '\n') ∧
        Texts.splitlines text = parsed.1.map line := by
  obtain ⟨events, hsequence, hrun, hcount⟩ := parsed
  constructor
  · intro h
    rw [parseEvents, accepts_check] at h
    obtain ⟨hsize, h⟩ := h
    rw [accepts_required] at h
    obtain ⟨text, htext, h⟩ := h
    rw [accepts_check] at h
    obtain ⟨hlast, h⟩ := h
    dsimp only at h
    rw [accepts_check] at h
    obtain ⟨hcount', h⟩ := h
    rw [accepts_bind] at h
    obtain ⟨⟨events', hlines, hrun', hseqs⟩, -, heq⟩ := h
    cases heq
    exact ⟨hsize, text, htext, hlast, hlines.symm⟩
  · rintro ⟨hsize, text, htext, hlast, hlines⟩
    dsimp only at hlines
    have hseqs : (events.map fun stored => stored.seq) =
        (List.range' 0 events.length).map Nat.cast := by
      rw [hsequence, List.range_eq_range']
    obtain ⟨⟨parsed, hlines', hrun', hseqs'⟩, hparsed, heq⟩ := parseLines_eq hlines hrun hseqs
    change parsed = events at heq
    subst heq
    have hlength : (Texts.splitlines text).length = manifest.eventCount := by
      rw [hlines, List.length_map, hcount]
    rw [parseEvents, accepts_check]
    refine ⟨hsize, ?_⟩
    rw [accepts_required]
    refine ⟨text, htext, ?_⟩
    rw [accepts_check]
    refine ⟨hlast, ?_⟩
    dsimp only
    rw [accepts_check]
    refine ⟨hlength, ?_⟩
    rw [accepts_bind]
    exact ⟨_, hparsed, rfl⟩

/-- What `validate_bundle` has seen. -/
theorem validateBundle_eq_ok [ManifestJson F D] {raw : Ustar.Bytes}
    {bundle : ValidatedBundle F D} :
    validateBundle raw = .ok bundle ↔ ∃ entries eventData text,
      Parts raw bundle entries eventData text := by
  constructor
  · intro h
    rw [validateBundle, accepts_check] at h
    obtain ⟨hsize, h⟩ := h
    rw [accepts_bind] at h
    obtain ⟨entries, hread, h⟩ := h
    rw [accepts_required] at h
    obtain ⟨manifestData, hmanifestData, h⟩ := h
    rw [accepts_required] at h
    obtain ⟨eventData, heventData, h⟩ := h
    rw [accepts_required] at h
    obtain ⟨manifest, -, h⟩ := h
    rw [accepts_check] at h
    obtain ⟨hcanonical, h⟩ := h
    rw [accepts_check] at h
    obtain ⟨hformat, h⟩ := h
    rw [accepts_check] at h
    obtain ⟨hcassette, h⟩ := h
    rw [accepts_check] at h
    obtain ⟨hschema, h⟩ := h
    rw [accepts_check] at h
    obtain ⟨hpath, h⟩ := h
    rw [accepts_check] at h
    obtain ⟨hdeclaredEvents, h⟩ := h
    rw [accepts_bind] at h
    obtain ⟨⟨events, hsequence, hrun, hcount⟩, hparsed, h⟩ := h
    obtain ⟨heventBytes, text, htext, hlast, hlines⟩ := parseEvents_eq_ok.mp hparsed
    rw [accepts_check] at h
    obtain ⟨hdigest, h⟩ := h
    dsimp only at h
    rw [accepts_check] at h
    obtain ⟨hnodup, h⟩ := h
    rw [accepts_check] at h
    obtain ⟨hsame, h⟩ := h
    rw [accepts_check] at h
    obtain ⟨hnames, h⟩ := h
    rw [accepts_bind] at h
    obtain ⟨blobs, hblobs, heq⟩ := h
    cases heq
    refine ⟨entries, eventData, text, hsize, hread, ?_, heventData, ?_, heventBytes, htext, hlast,
      hlines, hnames, find_of_checkDeclared hblobs, rfl, rfl⟩
    · rw [hmanifestData, hcanonical]
    · obtain ⟨hsizes, hdigests⟩ := hdeclaredEvents
      rw [← hpath, ← hsizes, ← hdigests]
  · rintro ⟨entries, eventData, text, h⟩
    obtain ⟨manifest, events, checked, bundleDigest, size, hformat, hcassette, hschema, hpath, hrun,
      hsequence, hcount, hdigest, hdeclared, hnodup, hcomplete⟩ := bundle
    obtain ⟨hsize, hread, hmanifest, hevents, hdeclaredEvents, heventBytes, hdecoded, hlast, hlines,
      hnames, hblobs, hbundleDigest, hbundleSize⟩ := h
    dsimp only at *
    have hchecked : manifest.events.size = eventData.length ∧
        manifest.events.digest = Sha256.hash eventData := by
      rw [hdeclaredEvents]
      exact ⟨rfl, rfl⟩
    have hsame : SameMembers (manifest.blobs.map fun blob => blob.digest) (blobDigests events) :=
      ⟨fun digest => (hcomplete digest).mp, fun digest => (hcomplete digest).mpr⟩
    obtain ⟨⟨found, hfacts⟩, hfound, heq⟩ := checkDeclared_eq hdeclared hblobs
    have hparsed : parseEvents manifest eventData = .ok ⟨events, hsequence, hrun, hcount⟩ :=
      parseEvents_eq_ok.mpr ⟨heventBytes, text, hdecoded, hlast, hlines⟩
    rw [validateBundle, accepts_check]
    refine ⟨hsize, ?_⟩
    rw [accepts_bind]
    refine ⟨entries, hread, ?_⟩
    rw [accepts_required]
    refine ⟨_, hmanifest, ?_⟩
    rw [accepts_required]
    refine ⟨_, hevents, ?_⟩
    rw [accepts_required]
    refine ⟨_, readManifest_canonicalJsonBytes manifest, ?_⟩
    rw [accepts_check]
    refine ⟨rfl, ?_⟩
    rw [accepts_check]
    refine ⟨hformat, ?_⟩
    rw [accepts_check]
    refine ⟨hcassette, ?_⟩
    rw [accepts_check]
    refine ⟨hschema, ?_⟩
    rw [accepts_check]
    refine ⟨hpath, ?_⟩
    rw [accepts_check]
    refine ⟨hchecked, ?_⟩
    rw [accepts_bind]
    refine ⟨_, hparsed, ?_⟩
    rw [accepts_check]
    refine ⟨hdigest, ?_⟩
    dsimp only
    rw [accepts_check]
    refine ⟨hnodup, ?_⟩
    rw [accepts_check]
    refine ⟨hsame, ?_⟩
    rw [accepts_check]
    refine ⟨hnames, ?_⟩
    rw [accepts_bind]
    refine ⟨_, hfound, ?_⟩
    change found = checked at heq
    clear hblobs hdeclaredEvents
    subst heq
    subst hbundleDigest
    subst hbundleSize
    rfl

end Tracewake.Bundles
