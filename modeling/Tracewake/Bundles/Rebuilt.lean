import Tracewake.Bundles.Pinned

/-!
# Bundles that are built again

A bundle that is accepted need not be the one that `build_bundle` makes of its content. The
validator leaves two things open: the order in which the manifest declares the blobs, and what
stands between the lines of the events. It also takes events whose own hashes are wrong, which
are refused in a cassette.
-/

namespace Tracewake.Bundles

open JsonText Recording Cassettes Effects
open Archives
open Results (lessCodePoints keyOrder)

variable {F D : Type} [Python F] [Sha256 D]

/-- Digests in the order of their spelling. -/
def InOrder (digests : List D) : Prop :=
  digests.Pairwise fun a b => (!lessCodePoints (Sha256.hex b) (Sha256.hex a)) = true

omit [Python F] in
/-- The blobs are sorted by their digests. -/
theorem sortedBlobs_inOrder {refs : List (BlobRef D)} (blobs : List (CheckedBlob refs)) :
    InOrder ((sortedBlobs blobs).map fun blob => blob.digest) := by
  rw [InOrder, List.pairwise_map]
  apply List.pairwise_mergeSort
  · exact fun a b c hab hbc => notLess_trans _ _ _ hab hbc
  · exact fun a b => notLess_total _ _

/-- A list of pairs in the order of their digests is determined by its members. -/
theorem eq_of_inOrder {β : Type} {a b : List (D × β)} (ha : InOrder (a.map Prod.fst))
    (hb : InOrder (b.map Prod.fst)) (hnodup : (a.map Prod.fst).Nodup) (hperm : a.Perm b) :
    a = b := by
  rw [InOrder, List.pairwise_map] at ha hb
  apply List.Perm.eq_of_pairwise ?_ ha hb hperm
  intro x y hx hy hxy hyx
  have hhex : Sha256.hex x.1 = Sha256.hex y.1 := notLess_antisymm hxy hyx
  exact List.inj_on_of_nodup_map hnodup hx (hperm.mem_iff.mpr hy) (hex_injective hhex)

/-- Blobs whose declarations are in bounds are declared. -/
theorem declare_of {refs : List (BlobRef D)} {blobs : List (CheckedBlob refs)}
    {entries : List (BlobEntry D)}
    (h : (entries.map fun entry => (entry.digest, entry.size)) =
      blobs.map fun blob => (blob.digest, blob.data.length)) : declare blobs = .ok entries := by
  induction blobs generalizing entries with
  | nil =>
    rw [List.map_eq_nil_iff.mp h]
    rfl
  | cons blob rest ih =>
    cases entries with
    | nil => cases h
    | cons entry entries =>
      rw [List.map_cons, List.map_cons, List.cons.injEq, Prod.mk.injEq] at h
      obtain ⟨⟨hdigest, hsize⟩, hrest⟩ := h
      obtain ⟨⟨path, digest, size⟩, hbound, hpath⟩ := entry
      dsimp only at hdigest hsize hbound hpath
      subst hdigest hsize hpath
      rw [declare, accepts_check]
      refine ⟨hbound, ?_⟩
      rw [accepts_bind]
      exact ⟨entries, ih hrest, rfl⟩

variable [Pydantic F D] [DecidableEq D]

section SameContent

variable {cassette : ValidatedCassette F D} {bundle : ValidatedBundle F D} {raw : Ustar.Bytes}

omit [Pydantic F D] in
/-- Blobs of the same content are the same up to their order. -/
theorem SameContent.perm (h : SameContent cassette bundle) :
    (cassette.blobs.map fun blob => (blob.digest, blob.data)).Perm
      (bundle.blobs.map fun blob => (blob.digest, blob.data)) := by
  have hcassette : (cassette.blobs.map fun blob => (blob.digest, blob.data)).Nodup := by
    apply List.Nodup.of_map Prod.fst
    rw [List.map_map]
    exact cassette_nodup cassette
  have hbundle : (bundle.blobs.map fun blob => (blob.digest, blob.data)).Nodup := by
    apply List.Nodup.of_map Prod.fst
    rw [List.map_map]
    change (bundle.blobs.map fun blob => blob.digest).Nodup
    rw [bundle.digests]
    exact bundle.nodup
  rw [List.perm_ext_iff_of_nodup hcassette hbundle]
  rintro ⟨digest, data⟩
  exact h.blobs digest data

omit [Pydantic F D] in
/-- Where the declarations are in order, they are those of the sorted blobs. -/
theorem SameContent.declared (h : SameContent cassette bundle)
    (horder : InOrder (bundle.manifest.blobs.map fun entry => entry.digest)) :
    (bundle.manifest.blobs.map fun entry => (entry.digest, entry.size)) =
      (sortedBlobs cassette.blobs).map fun blob => (blob.digest, blob.data.length) := by
  have hperm := ((sortedBlobs_perm cassette.blobs).map
    fun blob => (blob.digest, blob.data)).trans h.perm
  have hpairs := eq_of_inOrder (a := (sortedBlobs cassette.blobs).map
    fun blob => (blob.digest, blob.data)) ?_ ?_ ?_ hperm
  · have hsizes := congrArg (List.map fun pair : D × Ustar.Bytes => (pair.1, pair.2.length)) hpairs
    rw [List.map_map, List.map_map] at hsizes
    rw [← bundle.declared]
    exact hsizes.symm
  · rw [List.map_map]
    exact sortedBlobs_inOrder cassette.blobs
  · rw [List.map_map]
    change InOrder (bundle.blobs.map fun blob => blob.digest)
    rw [bundle.digests]
    exact horder
  · rw [List.map_map]
    exact ((sortedBlobs_perm cassette.blobs).map _).nodup_iff.mpr (cassette_nodup cassette)

omit [Pydantic F D] in
/-- The manifest that is built is the one that was accepted. -/
theorem SameContent.manifest_eq (h : SameContent cassette bundle)
    (hevents : bundle.manifest.events = ⟨eventsPath,
      Sha256.hash (Utf8.encode (eventText cassette.events)),
      (Utf8.encode (eventText cassette.events)).length⟩)
    (hcount : cassette.events.length ≤ maxEvents) :
    (⟨bundleFormatVersion, cassette.header.formatVersion, cassette.header.schemaVersion,
      cassette.header.runId, cassette.events.length, cassette.header.digest,
      ⟨eventsPath, Sha256.hash (Utf8.encode (eventText cassette.events)),
        (Utf8.encode (eventText cassette.events)).length⟩, bundle.manifest.blobs, hcount,
      bundle.manifest.blobsBound⟩ : BundleManifest D) = bundle.manifest := by
  have hdigest : cassette.header.digest = bundle.manifest.logicalRunDigest := by
    apply hex_injective
    rw [← cassette.digest, ← bundle.digest, h.events]
  have hlength : cassette.events.length = bundle.manifest.eventCount := by
    rw [h.events, bundle.count]
  have hformat := bundle.formatVersion
  have hcassette := cassette.formatVersion.trans bundle.cassetteVersion.symm
  have hschema := cassette.schemaVersion.trans bundle.schemaVersion.symm
  have hrun := h.runId
  generalize bundle.manifest = manifest at *
  obtain ⟨format, cassetteFormat, schema, runId, count, digest, events, blobs, _, _⟩ := manifest
  dsimp only at *
  subst hformat hcassette hschema hrun hlength hdigest hevents
  rfl

variable [Spelled D] {entries : Entries} {eventData : Ustar.Bytes} {text : Text}

omit [Pydantic F D] [Spelled D] in
/-- The names that the manifest gives are packed. -/
theorem SameContent.packed_names (h : SameContent cassette bundle)
    (manifestData eventData : Ustar.Bytes) :
    ∀ name ∈ manifestPath :: eventsPath :: bundle.manifest.blobs.map fun entry => entry.path,
      name ∈ (entriesOf manifestData eventData cassette.blobs).map Prod.fst := by
  rw [entriesOf, List.map_cons, List.map_cons, List.map_map, List.forall_mem_cons,
    List.forall_mem_cons, List.forall_mem_map]
  refine ⟨List.mem_cons_self, List.mem_cons_of_mem _ List.mem_cons_self, ?_⟩
  intro declared hdeclared
  have hdigest : declared.digest ∈ cassette.blobs.map fun blob => blob.digest := by
    rw [cassette.complete, h.events, ← bundle.complete]
    exact List.mem_map_of_mem (f := fun entry : BlobEntry D => entry.digest) hdeclared
  obtain ⟨blob, hblob, hsame⟩ := List.mem_map.mp hdigest
  apply List.mem_cons_of_mem
  apply List.mem_cons_of_mem
  rw [declared.canonicalPath, ← hsame]
  exact List.mem_map_of_mem (f := Prod.fst ∘ blobEntry) hblob

omit [Pydantic F D] in
/-- The entries of an accepted bundle are those that are packed. -/
theorem SameContent.entries_perm (h : SameContent cassette bundle)
    (hparts : Parts raw bundle entries eventData text) :
    entries.Perm (entriesOf (canonicalJsonBytes F bundle.manifest) eventData cassette.blobs) := by
  obtain ⟨-, hnodup⟩ := bundleBytes_of_readEntries hparts.read
  have hpacked := entriesOf_nodup (cassette_nodup cassette)
    (canonicalJsonBytes F bundle.manifest) eventData
  have hsubset : ∀ entry ∈ entriesOf (canonicalJsonBytes F bundle.manifest) eventData
      cassette.blobs, entry ∈ entries := by
    apply forall_entriesOf
    · exact mem_of_find hparts.manifest
    · exact mem_of_find hparts.events
    · intro blob hblob
      have hmem := (h.blobs blob.digest blob.data).mp (List.mem_map.mpr ⟨blob, hblob, rfl⟩)
      obtain ⟨stored, hstored, hpair⟩ := List.mem_map.mp hmem
      obtain ⟨hdigest, hdata⟩ := Prod.mk.inj hpair
      rw [blobEntry, ← hdigest, ← hdata]
      exact mem_of_find (hparts.blobs stored hstored)
  rw [List.perm_ext_iff_of_nodup hnodup.of_map hpacked.of_map]
  intro entry
  constructor
  · intro hentry
    -- An entry that is packed has the name of this one, and no other entry has its name.
    have hname := hparts.names.1 entry.1 (List.mem_map_of_mem hentry)
    have hpackedName := h.packed_names (canonicalJsonBytes F bundle.manifest) eventData _ hname
    obtain ⟨found, hfound, hsame⟩ := List.mem_map.mp hpackedName
    rw [← List.inj_on_of_nodup_map hnodup (hsubset found hfound) hentry hsame]
    exact hfound
  · exact hsubset entry

/-- A cassette with the content of an accepted bundle is built into the same file just when the
manifest declares the blobs in the order of their digests and the events are the lines that are
written, with a line feed behind each. -/
theorem build_validated [ManifestJson F D] (hvalid : validateBundle raw = .ok bundle)
    (hsame : SameContent cassette bundle) :
    buildBundle cassette = .ok raw ↔
      InOrder (bundle.manifest.blobs.map fun entry => entry.digest) ∧
        ∃ entries, readEntries (D := D) raw = .ok entries ∧
          entries.find eventsPath = some (Utf8.encode (eventText bundle.events)) := by
  constructor
  · intro hbuilt
    obtain ⟨manifest, h⟩ := built_of_buildBundle hbuilt
    obtain ⟨hmanifest, -, -⟩ := h.parts hvalid
    constructor
    · rw [hmanifest, h.sortedDigests]
      exact sortedBlobs_inOrder cassette.blobs
    · rw [← hsame.events]
      exact ⟨_, h.read, h.find eventsPath (List.mem_cons_of_mem _ List.mem_cons_self)⟩
  · rintro ⟨horder, entries', hread, hevents⟩
    obtain ⟨entries, eventData, text, hparts⟩ := validateBundle_eq_ok.mp hvalid
    obtain rfl : entries = entries' := Except.ok.inj (hparts.read.symm.trans hread)
    have hdata : eventData = Utf8.encode (eventText cassette.events) := by
      rw [hsame.events]
      exact Option.some.inj (hparts.events.symm.trans hevents)
    have heventBytes := hparts.eventBytes
    have hdeclaredEvents := hparts.declaredEvents
    have hperm := hsame.entries_perm hparts
    rw [hdata] at heventBytes hdeclaredEvents hperm
    obtain ⟨hraw, hnodup⟩ := bundleBytes_of_readEntries hparts.read
    have hcount : cassette.events.length ≤ maxEvents := by
      rw [hsame.events, bundle.count]
      exact bundle.manifest.countBound
    have hdeclared := hsame.declared horder
    have hblobs : cassette.blobs.length = bundle.manifest.blobs.length := by
      have hlength := congrArg List.length hdeclared
      rw [List.length_map, List.length_map, (sortedBlobs_perm cassette.blobs).length_eq] at hlength
      exact hlength.symm
    have hentryCount : (entriesOf (canonicalJsonBytes F bundle.manifest)
        (Utf8.encode (eventText cassette.events)) cassette.blobs).length ≤ maxEntries := by
      have hbound := bundle.manifest.blobsBound
      have hmax : 2 ≤ maxEntries := by decide
      rw [entriesOf, List.length_cons, List.length_cons, List.length_map, hblobs]
      omega
    have hbytes : bundleBytes (entriesOf (canonicalJsonBytes F bundle.manifest)
        (Utf8.encode (eventText cassette.events)) cassette.blobs) = raw := by
      rw [hraw, bundleBytes_eq, bundleBytes_eq, sortedEntries_eq_of_perm hperm hnodup]
    have hsize := hparts.size
    rw [buildBundle, accepts_check]
    refine ⟨heventBytes, ?_⟩
    rw [accepts_check]
    refine ⟨hcount, ?_⟩
    rw [accepts_bind]
    refine ⟨_, declare_of hdeclared, ?_⟩
    rw [accepts_check]
    refine ⟨bundle.manifest.blobsBound, ?_⟩
    dsimp only
    rw [hsame.manifest_eq hdeclaredEvents hcount, accepts_check]
    refine ⟨hentryCount, ?_⟩
    rw [← entriesOf, hbytes, accepts_check]
    exact ⟨hsize, rfl⟩

end SameContent

omit [Python F] [Pydantic F D] [DecidableEq D] in
/-- Blobs can be listed by their digests. -/
theorem exists_blobs {refs : List (BlobRef D)} {blobs : List (CheckedBlob refs)} {digests : List D}
    (h : ∀ digest ∈ digests, digest ∈ blobs.map fun blob => blob.digest) :
    ∃ listed : List (CheckedBlob refs), (listed.map fun blob => blob.digest) = digests ∧
      ∀ blob ∈ listed, blob ∈ blobs := by
  induction digests with
  | nil => exact ⟨[], rfl, fun _ hmem => absurd hmem List.not_mem_nil⟩
  | cons digest rest ih =>
    obtain ⟨hdigest, hrest⟩ := List.forall_mem_cons.mp h
    obtain ⟨blob, hblob, rfl⟩ := List.mem_map.mp hdigest
    obtain ⟨listed, hlisted, hmem⟩ := ih hrest
    refine ⟨blob :: listed, ?_, List.forall_mem_cons.mpr ⟨hblob, hmem⟩⟩
    rw [List.map_cons, hlisted]

/-- A bundle has the content of a cassette that is accepted just when the hashes that its events
hold of their own messages and arguments are right: only cassettes are checked for that. -/
theorem cassette_of_bundle [HeaderJson F D] [Spelled D] [Nonempty F]
    (bundle : ValidatedBundle F D) :
    (∃ source cassette, validateCassette source = .ok cassette ∧ SameContent cassette bundle) ↔
      ∀ stored ∈ bundle.events, Event.Consistent D stored.event := by
  constructor
  · rintro ⟨-, cassette, -, hsame⟩
    rw [← hsame.events]
    exact cassette.consistent
  · intro hconsistent
    obtain ⟨time⟩ := (inferInstance : Nonempty F)
    have hdigests : ∀ digest ∈ blobDigests bundle.events,
        digest ∈ bundle.blobs.map fun blob => blob.digest := by
      intro digest hdigest
      rw [bundle.digests]
      exact (bundle.complete digest).mpr hdigest
    obtain ⟨blobs, hcomplete, hmem⟩ := exists_blobs hdigests
    let cassette : ValidatedCassette F D := {
      header := {
        tracewakeVersion := [], schemaVersion := eventSchemaVersion
        runId := bundle.manifest.runId, name := [], recordedAt := time, status := .ok, models := []
        eventCount := bundle.events.length, digest := bundle.manifest.logicalRunDigest }
      events := bundle.events
      blobs
      formatVersion := rfl
      schemaVersion := rfl
      ofRun := bundle.ofRun
      inSequence := bundle.inSequence
      count := rfl
      consistent := hconsistent
      digest := bundle.digest
      complete := hcomplete }
    refine ⟨_, cassette, validateCassette_written cassette, rfl, rfl, ?_⟩
    intro digest data
    constructor
    · intro hpair
      obtain ⟨blob, hblob, heq⟩ := List.mem_map.mp hpair
      exact List.mem_map.mpr ⟨blob, hmem blob hblob, heq⟩
    · intro hpair
      obtain ⟨blob, hblob, heq⟩ := List.mem_map.mp hpair
      have hlisted : blob.digest ∈ blobs.map fun blob => blob.digest := by
        rw [hcomplete, ← bundle.complete, ← bundle.digests]
        exact List.mem_map_of_mem (f := fun blob : CheckedBlob (blobRefs bundle.events) =>
          blob.digest) hblob
      obtain ⟨other, hother, hsame⟩ := List.mem_map.mp hlisted
      have hnodup : (bundle.blobs.map fun blob => blob.digest).Nodup := by
        rw [bundle.digests]
        exact bundle.nodup
      have hblobs := List.inj_on_of_nodup_map hnodup (hmem other hother) hblob hsame
      exact List.mem_map.mpr ⟨other, hother, by rw [hblobs]; exact heq⟩

/-- The written file is bundled again, since its declarations and lines are as they are written. -/
theorem build_validated_written :
    ∃ (raw : Ustar.Bytes) (bundle : ValidatedBundle Decimal HexDigest),
      validateBundle raw = .ok bundle ∧ bundle.events = writtenLog "notes".toList writtenData ∧
        InOrder (bundle.manifest.blobs.map fun entry => entry.digest) ∧
          ∃ entries, readEntries (D := HexDigest) raw = .ok entries ∧
            entries.find eventsPath = some (Utf8.encode (eventText bundle.events)) := by
  obtain ⟨raw, bundle, hbuilt, haccepted, hevents⟩ := writtenCassette_accepted
  obtain ⟨manifest, h⟩ := built_of_buildBundle hbuilt
  have hopen := (build_validated haccepted (h.sameContent haccepted)).mp hbuilt
  exact ⟨raw, bundle, haccepted, hevents, hopen⟩

/-- A model call that holds a hash of its messages. -/
def hashedCall (messagesHash : Text) : Event Decimal HexDigest :=
  .modelCall {
    callId := "c".toList, provider := "p".toList, modelId := "m".toList, modelVersion := none
    params := {}, tools := none, messages := [{ role := .user, content := "hi".toList }]
    messagesHash, response := { finishReason := "stop".toList }, stream := none
    eventMeta := ⟨half, none, none⟩, reassembles := streamReassembles_none _ }

/-- The hash of its messages. -/
def rightHash : Text :=
  hashMessages Decimal HexDigest [{ role := .user, content := "hi".toList }]

/-- A bundle with the model call. -/
def hashedBundle (messagesHash : Text) : ValidatedBundle Decimal HexDigest where
  manifest := {
    bundleFormatVersion := bundleFormatVersion, cassetteFormatVersion := cassetteFormatVersion
    eventSchemaVersion := eventSchemaVersion, runId := "run".toList, eventCount := 1
    logicalRunDigest := Sha256.hash ((hashedCall messagesHash).canonicalBytes ++ [10])
    events := ⟨eventsPath, Sha256.hash [], 0⟩, blobs := [], countBound := one_le_maxEvents
    blobsBound := by decide }
  events := [⟨"run".toList, 0, hashedCall messagesHash⟩]
  blobs := []
  bundleDigest := Sha256.hash []
  size := 0
  formatVersion := rfl
  cassetteVersion := rfl
  schemaVersion := rfl
  path := rfl
  ofRun := by simp
  inSequence := rfl
  count := rfl
  digest := by simp [runDigest, canonicalOrder, sha256Hex]
  declared := rfl
  nodup := List.nodup_nil
  complete := fun _ => Iff.rfl

/-- With the right hash the bundle has the content of a cassette, and with none it has not. -/
theorem cassette_of_bundle_written :
    (∃ (source : Source) (cassette : ValidatedCassette Decimal HexDigest),
      validateCassette source = .ok cassette ∧ SameContent cassette (hashedBundle rightHash)) ∧
    ¬ ∃ (source : Source) (cassette : ValidatedCassette Decimal HexDigest),
      validateCassette source = .ok cassette ∧ SameContent cassette (hashedBundle []) := by
  have hnonempty : Nonempty Decimal := ⟨half⟩
  constructor
  · refine (cassette_of_bundle (hashedBundle rightHash)).mpr fun stored hstored => ?_
    obtain rfl := List.mem_singleton.mp hstored
    rfl
  · intro hcassette
    have hconsistent := (cassette_of_bundle (hashedBundle [])).mp hcassette _
      (List.mem_singleton_self _)
    revert hconsistent
    decide +kernel

end Tracewake.Bundles
