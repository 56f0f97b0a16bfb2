import Mathlib.Algebra.Order.Group.Nat
import Tracewake.Bundles.Bundle

/-!
# Entries of bundles

Entries that were packed are read as they were, in the order of their names, and what is read
from an archive is packed into the same archive again.
-/

namespace Tracewake.Bundles

open JsonText Recording Cassettes Effects
open Archives
open Results (lessCodePoints keyOrder)

variable {F D : Type}

/-! ## Order -/

/-- Two names are always ordered in one of both ways. -/
theorem notLess_total (a b : Text) : (!lessCodePoints b a || !lessCodePoints a b) = true := by
  have hirrefl := keyOrder.irrefl a
  have htrans := keyOrder.trans a b a
  cases hab : lessCodePoints a b with
  | false => exact Bool.or_true _
  | true =>
    cases hba : lessCodePoints b a with
    | false => rfl
    | true =>
      rw [htrans hab hba] at hirrefl
      cases hirrefl

/-- The order of names is transitive. -/
theorem notLess_trans (a b c : Text) (hab : (!lessCodePoints b a) = true)
    (hbc : (!lessCodePoints c b) = true) : (!lessCodePoints c a) = true := by
  rw [Bool.not_eq_true'] at hab hbc ⊢
  rw [← Bool.not_eq_true]
  intro hca
  rcases keyOrder.total a b with hlt | rfl | hlt
  · rw [keyOrder.trans c a b hca hlt] at hbc
    cases hbc
  · rw [hca] at hbc
    cases hbc
  · rw [hlt] at hab
    cases hab

/-- Names that are ordered both ways are the same. -/
theorem notLess_antisymm {a b : Text} (hab : (!lessCodePoints b a) = true)
    (hba : (!lessCodePoints a b) = true) : a = b := by
  rw [Bool.not_eq_true'] at hab hba
  rcases keyOrder.total a b with hlt | heq | hlt
  · rw [hlt] at hba
    cases hba
  · exact heq
  · rw [hlt] at hab
    cases hab

variable {entries other : Entries}

/-- Sorting loses no entry and adds none. -/
theorem sortedEntries_perm (entries : Entries) : (sortedEntries entries).Perm entries :=
  List.mergeSort_perm ..

/-- The names of sorted entries are in order. -/
theorem sortedEntries_pairwise (entries : Entries) :
    (sortedEntries entries).Pairwise fun a b => (!lessCodePoints b.1 a.1) = true := by
  apply List.pairwise_mergeSort
  · exact fun a b c hab hbc => notLess_trans a.1 b.1 c.1 hab hbc
  · exact fun a b => notLess_total a.1 b.1

/-- Sorted entries are sorted already. -/
theorem sortedEntries_sorted (entries : Entries) :
    sortedEntries (sortedEntries entries) = sortedEntries entries :=
  List.mergeSort_of_pairwise (sortedEntries_pairwise entries)

/-- The same entries are packed alike, however they were put together. -/
theorem sortedEntries_eq_of_perm (h : entries.Perm other)
    (hnodup : (entries.map Prod.fst).Nodup) : sortedEntries entries = sortedEntries other := by
  apply List.Perm.eq_of_pairwise ?_ (sortedEntries_pairwise entries)
    (sortedEntries_pairwise other)
  · exact (sortedEntries_perm entries).trans (h.trans (sortedEntries_perm other).symm)
  · intro a b ha hb hab hba
    have hname := notLess_antisymm hab hba
    have ha' := (sortedEntries_perm entries).mem_iff.mp ha
    have hb' := h.mem_iff.mpr ((sortedEntries_perm other).mem_iff.mp hb)
    exact List.inj_on_of_nodup_map hnodup ha' hb' hname

/-- An entry is found under its name. -/
theorem find_of_mem {name : Text} {data : Ustar.Bytes} (hnodup : (entries.map Prod.fst).Nodup)
    (h : (name, data) ∈ entries) : entries.find name = some data := by
  rw [Entries.find]
  cases hfind : entries.find? fun entry => entry.1 = name with
  | none =>
    have habsent := List.find?_eq_none.mp hfind _ h
    simp at habsent
  | some found =>
    have hname : found.1 = name := by simpa using List.find?_some hfind
    rw [Option.map_some, List.inj_on_of_nodup_map hnodup (List.mem_of_find?_eq_some hfind) h hname]

/-- What is found under a name is an entry. -/
theorem mem_of_find {name : Text} {data : Ustar.Bytes} (h : entries.find name = some data) :
    (name, data) ∈ entries := by
  obtain ⟨found, hfound, rfl⟩ := Option.map_eq_some_iff.mp h
  have hname : found.1 = name := by simpa using List.find?_some hfound
  rw [← hname]
  exact List.mem_of_find?_eq_some hfound

/-! ## Sizes -/

/-- The data of an archive are no longer than the archive. -/
theorem sum_data_le (mode : ℕ) (files : List Ustar.File) :
    (files.map fun file => file.data.length).sum ≤ (Ustar.write mode files).length := by
  have hblocks : (files.map fun file => file.data.length).sum ≤
      (files.flatMap (Ustar.fileBlocks mode)).length := by
    induction files with
    | nil => exact Nat.zero_le _
    | cons file files ih =>
      rw [List.map_cons, List.sum_cons, List.flatMap_cons, List.length_append, Ustar.fileBlocks,
        List.length_append, List.length_append]
      omega
  rw [Ustar.write]
  simp only [List.length_append]
  omega

/-! ## Reading -/

/-- The file of an entry. -/
def fileOf (entry : Text × Ustar.Bytes) : Ustar.File := ⟨Utf8.encode entry.1, entry.2⟩

/-- The bytes of a bundle are the archive of its sorted entries. -/
theorem bundleBytes_eq (entries : Entries) :
    bundleBytes entries = Ustar.write 0o644 ((sortedEntries entries).map fileOf) := rfl

/-- The entries of an archive that can be read. -/
structure Packable (entries : Entries) : Prop where
  nodup : (entries.map Prod.fst).Nodup
  count : entries.length ≤ maxEntries
  safe : ∀ entry ∈ entries, safeName entry.1 = true
  nul : ∀ entry ∈ entries, ∀ b ∈ Utf8.encode entry.1, b ≠ 0
  size : (bundleBytes entries).length ≤ maxBundleBytes
  plain : isCompressed (bundleBytes entries) = false

/-- A safe name fits into the name field of a header. -/
theorem length_encode_of_safeName {name : Text} (h : safeName name = true) :
    (Utf8.encode name).length ≤ 100 := by
  simp only [safeName, Bool.and_eq_true, decide_eq_true_eq] at h
  exact h.2

/-- Members that came from entries are read as these entries. -/
theorem readMembers_entries {entries : Entries} (hsafe : ∀ entry ∈ entries, safeName entry.1 = true)
    {total : ℕ}
    (hsize : total + (entries.map fun entry => entry.2.length).sum ≤ maxBundleBytes) :
    readMembers (D := D) total (entries.map fun entry => (entry.1, (fileOf entry).member)) =
      .ok entries := by
  induction entries generalizing total with
  | nil => rfl
  | cons entry rest ih =>
    obtain ⟨hname, hnames⟩ := List.forall_mem_cons.mp hsafe
    rw [List.map_cons, List.sum_cons] at hsize
    have hfile : (fileOf entry).member.isFile = true := rfl
    have hbound : entry.2.length ≤ maxBundleBytes := by omega
    have htake : (fileOf entry).member.data.take (maxBundleBytes + 1) = entry.2 :=
      List.take_of_length_le (by
        change entry.2.length ≤ _
        omega)
    have htotal : total + entry.2.length ≤ maxBundleBytes := by omega
    have hlength : entry.2.length = (fileOf entry).member.size := rfl
    rw [List.map_cons, readMembers, accepts_check]
    refine ⟨hname, ?_⟩
    rw [accepts_check]
    refine ⟨hfile, ?_⟩
    rw [accepts_check]
    refine ⟨hbound, ?_⟩
    dsimp only
    rw [htake, accepts_check]
    refine ⟨hlength, ?_⟩
    rw [accepts_check]
    refine ⟨htotal, ?_⟩
    rw [ih hnames (by omega)]
    rfl

/-- What was packed is read, in the order of the names. -/
theorem readEntries_bundleBytes {entries : Entries} (h : Packable entries) :
    readEntries (D := D) (bundleBytes entries) = .ok (sortedEntries entries) := by
  have hperm := sortedEntries_perm entries
  have hsafe : ∀ entry ∈ sortedEntries entries, safeName entry.1 = true := fun entry hentry =>
    h.safe entry (hperm.mem_iff.mp hentry)
  have hsum : ((sortedEntries entries).map fun entry => entry.2.length).sum ≤ maxBundleBytes := by
    refine le_trans ?_ h.size
    have hsum := sum_data_le 0o644 ((sortedEntries entries).map fileOf)
    rw [List.map_map] at hsum
    exact hsum
  have hfits : ∀ file ∈ (sortedEntries entries).map fileOf, file.Fits := by
    intro file hfile
    obtain ⟨entry, hentry, rfl⟩ := List.mem_map.mp hfile
    have hlength := List.single_le_sum (fun _ _ => Nat.zero_le _) _
      (List.mem_map_of_mem (f := fun entry : Text × Ustar.Bytes => entry.2.length) hentry)
    constructor
    · exact length_encode_of_safeName (hsafe entry hentry)
    · exact h.nul entry (hperm.mem_iff.mp hentry)
    · have hmax : maxBundleBytes < 8 ^ 11 := by decide
      exact lt_of_le_of_lt (hlength.trans hsum) hmax
  have hmode : 0o644 < 8 ^ 7 := by decide
  have hread := Ustar.read_write hmode hfits
  have hnamed : (((sortedEntries entries).map fileOf).map Ustar.File.member).mapM
      (fun member => (Utf8.decode none member.name).map fun name => (name, member)) =
        some ((sortedEntries entries).map fun entry => (entry.1, (fileOf entry).member)) := by
    rw [List.map_map]
    generalize sortedEntries entries = sorted
    induction sorted with
    | nil => rfl
    | cons entry rest ih =>
      have hname : Utf8.decode none (fileOf entry).member.name = some entry.1 :=
        Utf8.decode_encode none entry.1
      rw [List.map_cons, List.mapM_cons, ih]
      simp only [Function.comp, hname]
      rfl
  have hnames : ((sortedEntries entries).map fun entry =>
      (entry.1, (fileOf entry).member)).map Prod.fst = (sortedEntries entries).map Prod.fst := by
    rw [List.map_map]
    rfl
  have hcount : (((sortedEntries entries).map fileOf).map Ustar.File.member).length ≤
      maxEntries := by
    rw [List.length_map, List.length_map, hperm.length_eq]
    exact h.count
  rw [readEntries, accepts_check]
  refine ⟨h.plain, ?_⟩
  rw [accepts_required]
  refine ⟨_, hread, ?_⟩
  rw [accepts_check]
  refine ⟨hcount, ?_⟩
  rw [accepts_required]
  refine ⟨_, hnamed, ?_⟩
  dsimp only
  rw [hnames, accepts_check]
  refine ⟨?_, ?_⟩
  · symm
    apply List.mergeSort_of_pairwise
    rw [List.pairwise_map]
    exact sortedEntries_pairwise entries
  rw [accepts_check]
  refine ⟨((hperm.map Prod.fst).nodup_iff).mpr h.nodup, ?_⟩
  rw [readMembers_entries hsafe (by omega)]
  have hsame : bundleBytes entries = bundleBytes (sortedEntries entries) := by
    rw [bundleBytes, bundleBytes, sortedEntries_sorted]
  change (check _ _ >>= _) = _
  rw [accepts_check]
  exact ⟨hsame, rfl⟩

/-- The entries of a member list have the names of the members. -/
theorem readMembers_names {named : List (Text × Ustar.Member)} {total : ℕ} {entries : Entries}
    (h : readMembers (D := D) total named = .ok entries) :
    entries.map Prod.fst = named.map Prod.fst := by
  induction named generalizing total entries with
  | nil =>
    cases h
    rfl
  | cons entry rest ih =>
    obtain ⟨name, member⟩ := entry
    rw [readMembers, accepts_check] at h
    obtain ⟨-, h⟩ := h
    rw [accepts_check] at h
    obtain ⟨-, h⟩ := h
    rw [accepts_check] at h
    obtain ⟨-, h⟩ := h
    dsimp only at h
    rw [accepts_check] at h
    obtain ⟨-, h⟩ := h
    rw [accepts_check] at h
    obtain ⟨-, h⟩ := h
    rw [accepts_bind] at h
    obtain ⟨tail, htail, heq⟩ := h
    cases heq
    rw [List.map_cons, List.map_cons, ih htail]

/-- An archive whose entries are read is what they are packed into, and no two of them have one
name. -/
theorem bundleBytes_of_readEntries {raw : Ustar.Bytes} {entries : Entries}
    (h : readEntries (D := D) raw = .ok entries) :
    raw = bundleBytes entries ∧ (entries.map Prod.fst).Nodup := by
  rw [readEntries, accepts_check] at h
  obtain ⟨-, h⟩ := h
  rw [accepts_required] at h
  obtain ⟨members, -, h⟩ := h
  rw [accepts_check] at h
  obtain ⟨-, h⟩ := h
  rw [accepts_required] at h
  obtain ⟨named, -, h⟩ := h
  dsimp only at h
  rw [accepts_check] at h
  obtain ⟨-, h⟩ := h
  rw [accepts_check] at h
  obtain ⟨hnodup, h⟩ := h
  rw [accepts_bind] at h
  obtain ⟨read, hread, h⟩ := h
  rw [accepts_check] at h
  obtain ⟨hraw, heq⟩ := h
  cases heq
  rw [readMembers_names hread]
  exact ⟨hraw, hnodup⟩

end Tracewake.Bundles
