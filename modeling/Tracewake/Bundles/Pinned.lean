import Tracewake.Bundles.RoundTrip

/-!
# What a manifest pins

The manifest of an accepted bundle has the digest and the size of everything else in it. Who
wants to change another byte of the bundle has to find a collision.
-/

namespace Tracewake.Bundles

open JsonText Recording Cassettes Effects
open Archives

variable {F D : Type} [Python F] [Sha256 D] [Pydantic F D] [DecidableEq D]

/-- A name that no entry has is not found. -/
theorem find_eq_none {entries : Entries} {name : Text} (h : name ∉ entries.map Prod.fst) :
    entries.find name = none := by
  rw [Entries.find, Option.map_eq_none_iff, List.find?_eq_none]
  intro entry hentry heq
  apply h
  rw [← of_decide_eq_true heq]
  exact List.mem_map_of_mem hentry

/-- Entries that are found alike are the same. -/
theorem perm_of_find {entries other : Entries} (hnodup : (entries.map Prod.fst).Nodup)
    (hother : (other.map Prod.fst).Nodup) (h : ∀ name, entries.find name = other.find name) :
    entries.Perm other := by
  rw [List.perm_ext_iff_of_nodup hnodup.of_map hother.of_map]
  rintro ⟨name, data⟩
  constructor
  · intro hmem
    have hfind := find_of_mem hnodup hmem
    rw [h name] at hfind
    exact mem_of_find hfind
  · intro hmem
    have hfind := find_of_mem hother hmem
    rw [← h name] at hfind
    exact mem_of_find hfind

section Parts

variable {raw : Ustar.Bytes} {bundle : ValidatedBundle F D} {entries : Entries}
  {eventData : Ustar.Bytes} {text : Text}

omit [Pydantic F D] in
/-- A blob that is declared is found, with the digest and the size of its declaration. -/
theorem Parts.declared (h : Parts raw bundle entries eventData text) {entry : BlobEntry D}
    (hentry : entry ∈ bundle.manifest.blobs) : ∃ data, entries.find entry.path = some data ∧
      Sha256.hash data = entry.digest ∧ data.length = entry.size := by
  have hmem : (entry.digest, entry.size) ∈
      bundle.blobs.map fun blob => (blob.digest, blob.data.length) := by
    rw [bundle.declared]
    exact List.mem_map_of_mem (f := fun entry : BlobEntry D => (entry.digest, entry.size)) hentry
  obtain ⟨blob, hblob, hpair⟩ := List.mem_map.mp hmem
  obtain ⟨hdigest, hsize⟩ := Prod.mk.inj hpair
  refine ⟨blob.data, ?_, blob.hash.trans hdigest, hsize⟩
  rw [entry.canonicalPath, ← hdigest]
  exact h.blobs blob hblob

end Parts

/-- Two accepted bundles with the same manifest are the same file, or two of their entries with
one name are different data of one size and one digest. -/
theorem validate_pinned [ManifestJson F D] {raw other : Ustar.Bytes}
    {bundle bundle' : ValidatedBundle F D}
    (h : validateBundle raw = .ok bundle) (hother : validateBundle other = .ok bundle')
    (hmanifest : bundle.manifest = bundle'.manifest) :
    raw = other ∨ ∃ entries entries' name data data',
      readEntries (D := D) raw = .ok entries ∧ readEntries (D := D) other = .ok entries' ∧
        entries.find name = some data ∧ entries'.find name = some data' ∧
        data ≠ data' ∧ data.length = data'.length ∧
        Sha256.hash (D := D) data = Sha256.hash data' := by
  obtain ⟨entries, eventData, text, hparts⟩ := validateBundle_eq_ok.mp h
  obtain ⟨entries', eventData', text', hparts'⟩ := validateBundle_eq_ok.mp hother
  obtain ⟨hraw, hnodup⟩ := bundleBytes_of_readEntries hparts.read
  obtain ⟨hraw', hnodup'⟩ := bundleBytes_of_readEntries hparts'.read
  by_cases hsame : ∀ name, entries.find name = entries'.find name
  · left
    have hperm := perm_of_find hnodup hnodup' hsame
    rw [hraw, hraw', bundleBytes_eq, bundleBytes_eq, sortedEntries_eq_of_perm hperm hnodup]
  · right
    obtain ⟨name, hname⟩ := not_forall.mp hsame
    have hnames := hparts.names
    have hnames' := hparts'.names
    rw [← hmanifest] at hnames'
    -- A name that is in neither of them would be found in neither.
    have hlisted : name ∈ manifestPath :: eventsPath ::
        bundle.manifest.blobs.map fun entry => entry.path := by
      by_contra habsent
      apply hname
      rw [find_eq_none fun hmem => habsent (hnames.1 name hmem),
        find_eq_none fun hmem => habsent (hnames'.1 name hmem)]
    suffices hfound : ∃ data data', entries.find name = some data ∧
        entries'.find name = some data' ∧ data.length = data'.length ∧
          Sha256.hash (D := D) data = Sha256.hash data' by
      obtain ⟨data, data', hdata, hdata', hlength, hhash⟩ := hfound
      refine ⟨entries, entries', name, data, data', hparts.read, hparts'.read, hdata, hdata', ?_,
        hlength, hhash⟩
      rintro rfl
      exact hname (hdata.trans hdata'.symm)
    rcases List.mem_cons.mp hlisted with rfl | hlisted
    · refine ⟨_, _, hparts.manifest, hparts'.manifest, ?_⟩
      rw [hmanifest]
      exact ⟨rfl, rfl⟩
    · rcases List.mem_cons.mp hlisted with rfl | hlisted
      · have hevents := hparts.declaredEvents
        rw [hmanifest, hparts'.declaredEvents, BundleEntry.mk.injEq] at hevents
        exact ⟨_, _, hparts.events, hparts'.events, hevents.2.2.symm, hevents.2.1.symm⟩
      · obtain ⟨entry, hentry, rfl⟩ := List.mem_map.mp hlisted
        obtain ⟨data, hdata, hhash, hsize⟩ := hparts.declared hentry
        rw [hmanifest] at hentry
        obtain ⟨data', hdata', hhash', hsize'⟩ := hparts'.declared hentry
        exact ⟨data, data', hdata, hdata', hsize.trans hsize'.symm, hhash.trans hhash'.symm⟩

/-- Contents that the digests to compute with do not tell apart: they show the first bytes. -/
def twinData (last : UInt8) : List UInt8 := List.replicate 32 0 ++ [last]

/-- In the example two different files have one digest. -/
theorem twinData_hash : (Sha256.hash (twinData 1) : HexDigest) = Sha256.hash (twinData 2) := by
  decide +kernel

/-- The first log of the example is the record of a run with one file. -/
theorem smallRun_first : SmallRun "notes".toList (twinData 1) where
  events := by decide +kernel
  bound := by decide
  archive := by decide +kernel

/-- The second log of the example is the record of a run with the other file. -/
theorem smallRun_second : SmallRun "notes".toList (twinData 2) where
  events := by decide +kernel
  bound := by decide
  archive := by decide +kernel

/-- The two runs have one manifest, which only holds digests and sizes. -/
theorem writtenManifest_twin :
    writtenManifest "notes".toList (twinData 1) smallRun_first.bound =
      writtenManifest "notes".toList (twinData 2) smallRun_second.bound := by
  have hlog : writtenLog "notes".toList (twinData 1) = writtenLog "notes".toList (twinData 2) := by
    simp only [writtenLog, writtenEvent, twinData_hash]
    rfl
  have hevent : writtenEvent "notes".toList (twinData 1) =
      writtenEvent "notes".toList (twinData 2) := by
    simp only [writtenEvent, twinData_hash]
    rfl
  simp only [writtenManifest, hlog, hevent, twinData_hash]
  rfl

/-- Two files with one manifest are told apart by a collision of their blobs. -/
theorem validate_pinned_written :
    ∃ (raw other : Ustar.Bytes) (bundle bundle' : ValidatedBundle Decimal HexDigest),
      validateBundle raw = .ok bundle ∧ validateBundle other = .ok bundle' ∧
        bundle.manifest = bundle'.manifest ∧ raw ≠ other ∧
        ∃ entries entries' name data data',
          readEntries (D := HexDigest) raw = .ok entries ∧
            readEntries (D := HexDigest) other = .ok entries' ∧
            entries.find name = some data ∧ entries'.find name = some data' ∧
            data ≠ data' ∧ data.length = data'.length ∧
            Sha256.hash (D := HexDigest) data = Sha256.hash data' := by
  obtain ⟨raw, -, h⟩ := smallRun_first.built
  obtain ⟨other, -, h'⟩ := smallRun_second.built
  obtain ⟨bundle, haccepted⟩ := h.accepted (unseparated_writtenLog.mpr (by decide +kernel))
  obtain ⟨bundle', haccepted'⟩ := h'.accepted (unseparated_writtenLog.mpr (by decide +kernel))
  have hmanifest : bundle.manifest = bundle'.manifest := by
    rw [(h.parts haccepted).1, (h'.parts haccepted').1, writtenManifest_twin]
  have hne : raw ≠ other := by
    rintro rfl
    obtain rfl := Except.ok.inj (haccepted.symm.trans haccepted')
    have hmem := ((h.sameContent haccepted).blobs _ (twinData 1)).mp (List.mem_singleton_self _)
    have hpair := List.mem_singleton.mp (((h'.sameContent haccepted').blobs _ _).mpr hmem)
    exact absurd (Prod.mk.inj hpair).2 (by decide)
  exact ⟨raw, other, bundle, bundle', haccepted, haccepted', hmanifest, hne,
    (validate_pinned haccepted haccepted' hmanifest).resolve_left hne⟩

end Tracewake.Bundles
