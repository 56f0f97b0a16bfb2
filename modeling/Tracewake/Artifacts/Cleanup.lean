import Tracewake.Artifacts.Filesystem

/-!
# Cleanup of the local artifact store

`Cleanup` walks over the stored files and removes those that are old and not kept. It looks
at one file after the other, and at each it first decides and then removes the file. Other
processes use the store meanwhile, so the decision and the removal are two operations.
-/

namespace Tracewake.Artifacts

/-- Where a file is stored: under its key and version, or directly at its key. -/
inductive Place
  | version (identity : Identity)
  | legacy (key : Bytes)
  deriving DecidableEq

/-- The file at a place. -/
def Disk.file (disk : Disk) : Place → Option File
  | .version identity => disk.objects identity
  | .legacy key => disk.legacy key

/-- `os.Remove`. -/
def Disk.remove (disk : Disk) : Place → Disk
  | .version identity => { disk with objects := Function.update disk.objects identity none }
  | .legacy key => { disk with legacy := Function.update disk.legacy key none }

/-- The object that a file is: a file that is stored at its key is named by its digest. -/
def Filesystem.identity (s : Filesystem) (place : Place) (file : File) : Identity :=
  match place with
  | .version identity => identity
  | .legacy key => ⟨key, s.hashing.version file.data⟩

/-- Whether a file is kept whatever its age. -/
def Filesystem.keeps (s : Filesystem) (keep : List Identity) (place : Place) (file : File) : Bool :=
  match place with
  | .version identity => validVersion identity.version && keep.contains identity
  | .legacy _ => keep.contains (s.identity place file)

/-- Whether `Cleanup` decides to remove what is at a place. -/
def Filesystem.inspect (s : Filesystem) (keep : List Identity) (before : ℤ) (place : Place) :
    Bool :=
  match s.disk.file place with
  | none => false
  | some file => !s.keeps keep place file && !decide (before < file.modified)

/-- The store without the file at a place. -/
def Filesystem.remove (s : Filesystem) (place : Place) : Filesystem :=
  { s with disk := s.disk.remove place }

/-- Whether an object is in the store. -/
def Filesystem.holds (s : Filesystem) (identity : Identity) : Bool :=
  (s.disk.objects identity).isSome || (s.openLegacyVersion identity.key identity.version).isSome

/-- Removing one file leaves the others. -/
theorem Disk.file_remove (disk : Disk) {place other : Place} (hne : other ≠ place) :
    (disk.remove place).file other = disk.file other := by
  cases place with
  | version identity =>
    cases other with
    | version identity' =>
      have hne' : identity' ≠ identity := fun h => hne (congrArg Place.version h)
      simp [Disk.remove, Disk.file, hne']
    | legacy key => rfl
  | legacy key =>
    cases other with
    | version identity => rfl
    | legacy key' =>
      have hne' : key' ≠ key := fun h => hne (congrArg Place.legacy h)
      simp [Disk.remove, Disk.file, hne']

/-- An object is in the store when some file is it. -/
theorem Filesystem.holds_of_file {s : Filesystem} {place : Place} {file : File}
    (hfile : s.disk.file place = some file) : s.holds (s.identity place file) = true := by
  cases place with
  | version identity =>
    have hobject : s.disk.objects identity = some file := hfile
    simp [Filesystem.holds, Filesystem.identity, hobject]
  | legacy key =>
    have hlegacy : s.disk.legacy key = some file := hfile
    simp [Filesystem.holds, Filesystem.identity, Filesystem.openLegacyVersion, hlegacy,
      Option.filter_some]

/-- What `Commit` has checked is in a file. -/
theorem Filesystem.file_of_commit {s : Filesystem} {key version digest : Bytes} {size : ℤ}
    (hcommit : (s.commit key version digest size).isSome = true) :
    ∃ place file, s.disk.file place = some file ∧ s.identity place file = ⟨key, version⟩ := by
  unfold Filesystem.commit at hcommit
  split at hcommit
  · cases hcommit
  · split at hcommit
    · cases hcommit
    · next file hopen =>
      unfold Filesystem.openVersion at hopen
      split at hopen
      · cases hopen
      · cases hobject : s.disk.objects ⟨key, version⟩ with
        | some found => exact ⟨.version ⟨key, version⟩, found, hobject, rfl⟩
        | none =>
          rw [hobject] at hopen
          obtain ⟨hfile, hversion⟩ := Option.filter_eq_some_iff.mp hopen
          refine ⟨.legacy key, file, hfile, ?_⟩
          rw [Filesystem.identity, of_decide_eq_true hversion]

/-- A file that is not removed is kept or young. -/
theorem Filesystem.inspect_of_file {s : Filesystem} {keep : List Identity} {before : ℤ}
    {place : Place} {file : File} (hfile : s.disk.file place = some file)
    (hspared : s.keeps keep place file = true ∨ before < file.modified) :
    s.inspect keep before place = false := by
  unfold Filesystem.inspect
  rw [hfile]
  rcases hspared with hkeeps | hyoung
  · simp [hkeeps]
  · simp [hyoung]

/-- `Put` publishes one file, and leaves the others and the clock as they are. -/
theorem Filesystem.put_store {s s' : Filesystem} {key digest input : Bytes} {size : ℤ}
    {object : Object} (hput : s.put key digest size input = some (object, s')) :
    s'.hashing = s.hashing ∧ s'.now = s.now ∧
      ∃ data, s'.disk.file (.version ⟨key, digest⟩) = some ⟨data, s.now⟩ ∧
        ∀ place, place ≠ .version ⟨key, digest⟩ → s'.disk.file place = s.disk.file place := by
  unfold Filesystem.put at hput
  split at hput
  · cases hput
  · simp only at hput
    split at hput
    · cases hput
    · split at hput
      · cases hput
      · obtain ⟨-, rfl⟩ := Prod.mk.inj (Option.some.inj hput)
        refine ⟨rfl, rfl, _, Function.update_self .., fun place hplace => ?_⟩
        cases place with
        | version identity =>
          exact Function.update_of_ne (fun h => hplace (congrArg Place.version h)) ..
        | legacy key => rfl

/-- A hexadecimal encoding consists of digits that a decoder accepts. -/
theorem all_isHexDigit_hexEncode (data : Bytes) : (hexEncode data).all isHexDigit = true := by
  have hdigit : ∀ n, n < 16 → isHexDigit (hexDigit n) = true := by decide
  rw [List.all_eq_true]
  intro b hb
  obtain ⟨c, _, hc⟩ := List.mem_flatMap.mp hb
  have hbound := c.toNat_lt
  rcases List.mem_pair.mp hc with rfl | rfl
  · exact hdigit _ (by omega)
  · exact hdigit _ (by omega)

/-- A hexadecimal encoding has two digits for each byte. -/
theorem length_hexEncode (data : Bytes) : (hexEncode data).length = 2 * data.length := by
  induction data with
  | nil => rfl
  | cons b rest ih =>
    rw [hexEncode, List.flatMap_cons, List.length_append, ← hexEncode, ih]
    simp only [List.length_cons, List.length_nil]
    omega

/-- What `Put` has published is what `Commit` finds, so that a handler which uploads a file by
itself need not have it checked. -/
theorem Filesystem.commit_of_put {s s' : Filesystem} {key digest input : Bytes} {size : ℤ}
    {object : Object} (hlength : ∀ data, (s.hashing.sha256 data).length = 32)
    (hput : s.put key digest size input = some (object, s')) :
    (s'.commit key digest digest size).isSome = true := by
  unfold Filesystem.put at hput
  simp only at hput
  generalize input.take (size + 1).toNat = data at hput
  split at hput
  · cases hput
  · next hrefused =>
    have hvalid : validDeclaration key digest size = true := by simpa using hrefused
    have hsafe : safeKey key = true := by
      simp only [validDeclaration, Bool.and_eq_true] at hvalid
      exact hvalid.1.1.1
    split at hput
    · cases hput
    · next hsize =>
      split at hput
      · cases hput
      · next hdigest =>
        obtain ⟨-, rfl⟩ := Prod.mk.inj (Option.some.inj hput)
        rw [ne_eq, not_not] at hsize hdigest
        have hversion : validVersion digest = true := by
          rw [← hdigest, validVersion, Hashing.version, all_isHexDigit_hexEncode, length_hexEncode,
            hlength]
          rfl
        simp [Filesystem.commit, Filesystem.openVersion, hvalid, hversion, hsafe, hsize, hdigest]

end Tracewake.Artifacts
