import Mathlib.Algebra.GroupWithZero.Nat
import Mathlib.Algebra.Order.BigOperators.Group.List
import Mathlib.Algebra.Ring.Int.Defs
import Mathlib.Data.List.TakeWhile
import Mathlib.Data.Option.Basic

/-!
# USTAR archives

A tape archive of regular files in blocks of 512 bytes, as the `tarfile` module writes it
with fixed metadata, and its reader. The reader goes through the blocks as `tarfile` does.
It knows no extended headers and refuses them.
-/

namespace Tracewake.Archives.Ustar

/-- A byte string. -/
abbrev Bytes := List UInt8

/-- The length of a block. -/
def blockSize : ℕ := 512

/-- An archive is a sequence of records of this length. -/
def recordSize : ℕ := 10240

/-! ## Fields -/

/-- Bytes of value zero. -/
def zeros (n : ℕ) : Bytes := List.replicate n 0

/-- The last octal digits of a number. -/
def octal : ℕ → ℕ → Bytes
  | 0, _ => []
  | width + 1, n => octal width (n / 8) ++ [UInt8.ofNat (48 + n % 8)]

/-- A number in a field of this width. -/
def numberField (width n : ℕ) : Bytes := octal (width - 1) n ++ [0]

/-- A text in a field of this width. -/
def textField (width : ℕ) (s : Bytes) : Bytes := s.take width ++ zeros (width - s.length)

/-- A field up to its first zero byte. -/
def untilNul (field : Bytes) : Bytes := field.takeWhile fun b => b ≠ 0

/-- White space around the digits of a number. -/
def isSpace (b : UInt8) : Bool :=
  b = 32 || (9 ≤ b && b ≤ 13) || (28 ≤ b && b ≤ 31)

/-- An octal digit. -/
def isOctal (b : UInt8) : Bool := 48 ≤ b && b < 56

/-- The value of octal digits. -/
def octalValue (digits : Bytes) : ℕ :=
  digits.foldl (fun n d => 8 * n + (d.toNat - 48)) 0

/-- The number in a field. -/
def readOctal (field : Bytes) : Option ℕ :=
  let digits := (((untilNul field).dropWhile isSpace).reverse.dropWhile isSpace).reverse
  if digits.all isOctal then some (octalValue digits) else none

/-- Cut bytes into fields of these widths. -/
def fields : List ℕ → Bytes → List Bytes
  | [], _ => []
  | width :: widths, bytes => bytes.take width :: fields widths (bytes.drop width)

/-- Fields of known widths are cut out of what they were joined to. -/
theorem fields_flatten {parts : List Bytes} {widths : List ℕ}
    (h : parts.map List.length = widths) (rest : Bytes) :
    fields widths (parts.flatten ++ rest) = parts := by
  induction parts generalizing widths with
  | nil =>
    obtain rfl := h
    rfl
  | cons part parts ih =>
    obtain rfl := h
    rw [List.map_cons, fields, List.flatten_cons, List.append_assoc, List.take_left,
      List.drop_left, ih rfl]

/-- An octal number fills its width. -/
theorem length_octal (width n : ℕ) : (octal width n).length = width := by
  induction width generalizing n with
  | zero => rfl
  | succ width ih => rw [octal, List.length_append, ih, List.length_singleton]

/-- A number field has its width, the final zero included. -/
theorem length_numberField {width : ℕ} (h : 0 < width) (n : ℕ) :
    (numberField width n).length = width := by
  rw [numberField, List.length_append, length_octal, List.length_singleton]
  omega

/-- A text field has its width. -/
theorem length_textField (width : ℕ) (s : Bytes) : (textField width s).length = width := by
  rw [textField, List.length_append, List.length_take, zeros, List.length_replicate]
  omega

/-- An octal digit is the byte of its digit. -/
theorem toNat_digit (n : ℕ) : (UInt8.ofNat (48 + n % 8)).toNat = 48 + n % 8 := by
  rw [UInt8.toNat_ofNat']
  omega

/-- An octal digit is one. -/
theorem isOctal_digit (n : ℕ) : isOctal (UInt8.ofNat (48 + n % 8)) = true := by
  have hvalue := toNat_digit n
  simp only [isOctal, Bool.and_eq_true, decide_eq_true_eq, UInt8.le_iff_toNat_le,
    UInt8.lt_iff_toNat_lt, hvalue]
  have h48 : (48 : UInt8).toNat = 48 := rfl
  have h56 : (56 : UInt8).toNat = 56 := rfl
  omega

/-- An octal number consists of octal digits. -/
theorem octal_isOctal (width n : ℕ) : ∀ b ∈ octal width n, isOctal b = true := by
  induction width generalizing n with
  | zero => simp [octal]
  | succ width ih =>
    intro b hb
    rw [octal, List.mem_append, List.mem_singleton] at hb
    rcases hb with hb | rfl
    · exact ih _ b hb
    · exact isOctal_digit n

/-- The digits that were written have the number as their value. -/
theorem octalValue_octal {width n : ℕ} (h : n < 8 ^ width) : octalValue (octal width n) = n := by
  induction width generalizing n with
  | zero =>
    have hn : n = 0 := by simpa using h
    subst hn
    rfl
  | succ width ih =>
    have hquotient : n / 8 < 8 ^ width := by
      rw [pow_succ] at h
      omega
    have hsplit : octalValue (octal width (n / 8) ++ [UInt8.ofNat (48 + n % 8)]) =
        8 * octalValue (octal width (n / 8)) + ((UInt8.ofNat (48 + n % 8)).toNat - 48) := by
      rw [octalValue, List.foldl_append]
      rfl
    rw [octal, hsplit, ih hquotient, toNat_digit]
    omega

/-- An octal digit is no space. -/
theorem not_isSpace_of_isOctal {b : UInt8} (h : isOctal b = true) : isSpace b = false := by
  simp only [isOctal, Bool.and_eq_true, decide_eq_true_eq, UInt8.le_iff_toNat_le,
    UInt8.lt_iff_toNat_lt] at h
  simp only [isSpace, Bool.or_eq_false_iff, Bool.and_eq_false_iff, decide_eq_false_iff_not,
    UInt8.le_iff_toNat_le, ← UInt8.toNat_inj]
  have h48 : (48 : UInt8).toNat = 48 := rfl
  have h32 : (32 : UInt8).toNat = 32 := rfl
  have h9 : (9 : UInt8).toNat = 9 := rfl
  have h13 : (13 : UInt8).toNat = 13 := rfl
  have h28 : (28 : UInt8).toNat = 28 := rfl
  have h31 : (31 : UInt8).toNat = 31 := rfl
  omega

/-- An octal digit is not zero. -/
theorem ne_zero_of_isOctal {b : UInt8} (h : isOctal b = true) : b ≠ 0 := by
  rintro rfl
  cases h

/-- What stands before the first zero byte. -/
theorem untilNul_append {s : Bytes} (h : ∀ b ∈ s, b ≠ 0) (rest : Bytes) :
    untilNul (s ++ 0 :: rest) = s := by
  rw [untilNul, List.takeWhile_append_of_pos fun b hb => by simpa using h b hb]
  simp

/-- A text without a zero ends where it ends. -/
theorem untilNul_self {s : Bytes} (h : ∀ b ∈ s, b ≠ 0) : untilNul s = s := by
  rw [untilNul, List.takeWhile_eq_self_iff]
  exact fun b hb => by simpa using h b hb

/-- A text field is read back. -/
theorem untilNul_textField {width : ℕ} {s : Bytes} (hlength : s.length ≤ width)
    (h : ∀ b ∈ s, b ≠ 0) : untilNul (textField width s) = s := by
  rw [textField, List.take_of_length_le hlength]
  rcases Nat.eq_zero_or_pos (width - s.length) with hzero | hpos
  · rw [hzero, zeros, List.replicate_zero, List.append_nil, untilNul_self h]
  · obtain ⟨n, hn⟩ : ∃ n, width - s.length = n + 1 := ⟨width - s.length - 1, by omega⟩
    rw [hn, zeros, List.replicate_succ, untilNul_append h]

/-- No space stands before octal digits. -/
theorem dropWhile_isSpace {digits : Bytes} (h : ∀ b ∈ digits, isOctal b = true) :
    digits.dropWhile isSpace = digits := by
  cases digits with
  | nil => rfl
  | cons b rest =>
    rw [List.dropWhile_cons, not_isSpace_of_isOctal (h b List.mem_cons_self)]
    rfl

/-- Digits before a zero byte are read. -/
theorem readOctal_digits {digits : Bytes} (h : ∀ b ∈ digits, isOctal b = true) (rest : Bytes) :
    readOctal (digits ++ 0 :: rest) = some (octalValue digits) := by
  have hnul : untilNul (digits ++ 0 :: rest) = digits :=
    untilNul_append (fun b hb => ne_zero_of_isOctal (h b hb)) rest
  have hreverse : ∀ b ∈ digits.reverse, isOctal b = true :=
    fun b hb => h b (List.mem_reverse.mp hb)
  simp only [readOctal, hnul, dropWhile_isSpace h, dropWhile_isSpace hreverse,
    List.reverse_reverse]
  rw [if_pos (List.all_eq_true.mpr h)]

/-- A number field is read back. -/
theorem readOctal_numberField {width n : ℕ} (h : n < 8 ^ (width - 1)) :
    readOctal (numberField width n) = some n := by
  rw [numberField, readOctal_digits (octal_isOctal _ _), octalValue_octal h]

/-- An empty field is read as zero. -/
theorem readOctal_zeros (n : ℕ) : readOctal (zeros (n + 1)) = some 0 := by
  rw [zeros, List.replicate_succ]
  rfl

/-! ## Writing -/

/-- A regular file. -/
structure File where
  name : Bytes
  data : Bytes
  deriving DecidableEq

/-- The sum of bytes. -/
def byteSum (bytes : Bytes) : ℕ := (bytes.map UInt8.toNat).sum

/-- The checksum field. -/
def checksumField (sum : ℕ) : Bytes := octal 6 sum ++ [0, 32]

/-- The fields before the checksum. -/
def frontFields (mode : ℕ) (file : File) : List Bytes :=
  [textField 100 file.name, numberField 8 mode, numberField 8 0, numberField 8 0,
    numberField 12 file.data.length, numberField 12 0]

/-- The fields behind the checksum: the type of a regular file, no link, the format, no
owner, no device and no more of the name. -/
def backFields : List Bytes :=
  [[48], zeros 100, [117, 115, 116, 97, 114, 0], [48, 48], zeros 32, zeros 32, zeros 8, zeros 8,
    zeros 155]

/-- The block before the data of a file. The checksum is taken with spaces in its place. -/
def header (mode : ℕ) (file : File) : Bytes :=
  let sum := byteSum (frontFields mode file).flatten + 256 + byteSum backFields.flatten
  (frontFields mode file ++ checksumField sum :: backFields).flatten ++ zeros 12

/-- What fills the last block of so many bytes. -/
def fill (block length : ℕ) : Bytes := zeros ((block - length % block) % block)

/-- The blocks of a file. -/
def fileBlocks (mode : ℕ) (file : File) : Bytes :=
  header mode file ++ (file.data ++ fill blockSize file.data.length)

/-- The archive of some files. -/
def write (mode : ℕ) (files : List File) : Bytes :=
  let blocks := files.flatMap (fileBlocks mode) ++ zeros (2 * blockSize)
  blocks ++ fill recordSize blocks.length

/-! ## Reading -/

/-- A member of an archive. -/
structure Member where
  name : Bytes
  type : UInt8
  size : ℕ
  data : Bytes

/-- The types of regular files. -/
def Member.isFile (member : Member) : Bool :=
  member.type = 48 || member.type = 0 || member.type = 55

/-- Types that say something about the next member. -/
def extended (type : UInt8) : Bool :=
  [76, 75, 83, 120, 103, 88].contains type

/-- Links, devices, directories and pipes have no data. -/
def hasData (type : UInt8) : Bool :=
  ! [49, 50, 51, 52, 53, 54].contains type

/-- The widths of the fields of a header. -/
def widths : List ℕ := [100, 8, 8, 8, 12, 12, 8, 1, 100, 6, 2, 32, 32, 8, 8, 155]

/-- The sum of bytes as signed numbers. -/
def signedSum (bytes : Bytes) : ℤ :=
  (bytes.map fun b => if b < 128 then (b.toNat : ℤ) else b.toNat - 256).sum

/-- The name, the type and the size that a header block holds. -/
def readHeader (block : Bytes) : Option (Bytes × UInt8 × ℕ) :=
  match fields widths block with
  | [name, mode, uid, gid, size, mtime, checksum, [type], _, _, _, _, _, devmajor, devminor,
      rest] => do
    let stored ← readOctal checksum
    guard (stored + byteSum checksum = byteSum block + 256 ∨
      stored + signedSum checksum = signedSum block + 256)
    guard ([mode, uid, gid, mtime, devmajor, devminor].all fun field => (readOctal field).isSome)
    let size ← readOctal size
    let name := untilNul name
    let type := if type = 0 ∧ name.getLast? = some 47 then 53 else type
    let name := if type = 53 then (name.reverse.dropWhile fun b => b = 47).reverse else name
    let folder := untilNul rest
    return (if folder = [] then name else folder ++ 47 :: name, type, size)
  | _ => none

/-- The members from here on. At the beginning of the archive there has to be a block. -/
def readFrom : ℕ → Bool → Bytes → Option (List Member)
  | 0, _, _ => none
  | fuel + 1, first, raw =>
    let ended := if first then none else some []
    let block := raw.take blockSize
    if raw.length < blockSize then ended
    else if block.all (· = 0) then some []
    else
      match readHeader block with
      | none => ended
      | some (name, type, size) => do
        guard (extended type = false)
        let length := if hasData type then size else 0
        let rest := raw.drop blockSize
        let span := length + (fill blockSize length).length
        guard (span ≤ rest.length)
        let members ← readFrom fuel false (rest.drop span)
        return ⟨name, type, size, rest.take length⟩ :: members

/-- `getmembers` of an archive, with what is read of each member. -/
def read (raw : Bytes) : Option (List Member) := readFrom (raw.length + 1) true raw

/-! ## Round trip -/

/-- The name and the data fit into the fields of a header. -/
structure File.Fits (file : File) : Prop where
  name : file.name.length ≤ 100
  nul : ∀ b ∈ file.name, b ≠ 0
  size : file.data.length < 8 ^ 11

/-- The sum of the bytes is that of both parts. -/
theorem byteSum_append (a b : Bytes) : byteSum (a ++ b) = byteSum a + byteSum b := by
  rw [byteSum, List.map_append, List.sum_append]
  rfl

/-- Zeros add nothing to the sum. -/
theorem byteSum_zeros (n : ℕ) : byteSum (zeros n) = 0 := by
  rw [byteSum, zeros, List.map_replicate, List.sum_replicate]
  exact Nat.mul_zero n

/-- A sum of bytes is bounded by their number. -/
theorem byteSum_le (bytes : Bytes) : byteSum bytes ≤ 255 * bytes.length := by
  induction bytes with
  | nil => rfl
  | cons b bytes ih =>
    have hb := b.toNat_lt
    rw [byteSum, List.map_cons, List.sum_cons, List.length_cons]
    change b.toNat + byteSum bytes ≤ _
    omega

variable {mode : ℕ} {file : File}

/-- The fields before the checksum have their widths. -/
theorem length_frontFields : (frontFields mode file).map List.length = [100, 8, 8, 8, 12, 12] := by
  simp [frontFields, length_textField, length_numberField]

/-- Joined fields have the sum of their widths. -/
theorem length_flatten {parts : List Bytes} {widths : List ℕ}
    (h : parts.map List.length = widths) : parts.flatten.length = widths.sum := by
  rw [List.length_flatten, h]

/-- The fields after the checksum have their widths. -/
theorem length_backFields : backFields.map List.length = [1, 100, 6, 2, 32, 32, 8, 8, 155] := by
  simp [backFields, zeros]

/-- A header fills one block. -/
theorem length_header : (header mode file).length = blockSize := by
  have hfront : (frontFields mode file).flatten.length = 148 := length_flatten length_frontFields
  have hback : backFields.flatten.length = 344 := length_flatten length_backFields
  rw [header, List.flatten_append, List.flatten_cons, List.length_append, List.length_append,
    List.length_append, hfront, hback, checksumField, List.length_append, length_octal, zeros,
    List.length_replicate]
  rfl

/-- The checksum fits into its field. -/
theorem header_sum_lt :
    byteSum (frontFields mode file).flatten + 256 + byteSum backFields.flatten < 8 ^ 6 := by
  have hfront := byteSum_le (frontFields mode file).flatten
  have hback := byteSum_le backFields.flatten
  rw [length_flatten length_frontFields] at hfront
  rw [length_flatten length_backFields] at hback
  simp only [List.sum_cons, List.sum_nil] at hfront hback
  omega

/-- The sum over the header, whatever its checksum is. -/
theorem byteSum_header (mode : ℕ) (file : File) : ∃ checksum, byteSum (header mode file) + 256 =
    byteSum (frontFields mode file).flatten + 256 + byteSum backFields.flatten +
      byteSum (checksumField checksum) ∧
    fields widths (header mode file) =
      frontFields mode file ++ checksumField checksum :: backFields ∧
    checksum = byteSum (frontFields mode file).flatten + 256 + byteSum backFields.flatten := by
  refine ⟨_, ?_, ?_, rfl⟩
  · rw [header, byteSum_append, byteSum_zeros, List.flatten_append, List.flatten_cons,
      byteSum_append, byteSum_append]
    omega
  · rw [header]
    refine fields_flatten ?_ _
    rw [List.map_append, length_frontFields, List.map_cons, length_backFields, checksumField,
      List.length_append, length_octal]
    rfl

/-- The header of a file is read back. -/
theorem readHeader_header (hmode : mode < 8 ^ 7) (h : file.Fits) :
    readHeader (header mode file) = some (file.name, 48, file.data.length) := by
  obtain ⟨checksum, hsum, hfields, hchecksum⟩ := byteSum_header mode file
  have hstored : readOctal (checksumField checksum) = some checksum := by
    rw [checksumField, readOctal_digits (octal_isOctal _ _), octalValue_octal]
    rw [hchecksum]
    exact header_sum_lt
  have hname : untilNul (textField 100 file.name) = file.name := untilNul_textField h.name h.nul
  have hsize : readOctal (numberField 12 file.data.length) = some file.data.length :=
    readOctal_numberField h.size
  have hmode' : readOctal (numberField 8 mode) = some mode := readOctal_numberField hmode
  have hzero : readOctal (numberField 8 0) = some 0 := readOctal_numberField (by decide)
  have htime : readOctal (numberField 12 0) = some 0 := readOctal_numberField (by decide)
  have hdevice : readOctal (zeros 8) = some 0 := readOctal_zeros 7
  have hrest : untilNul (zeros 155) = [] := by
    rw [zeros, List.replicate_succ]
    rfl
  rw [hchecksum.symm] at hsum
  simp only [readHeader, hfields, frontFields, backFields, List.cons_append, List.nil_append,
    hstored, hname, hsize, hmode', hzero, htime, hdevice, hrest, Option.bind_eq_bind,
    Option.bind_some, List.all_cons, List.all_nil, Option.isSome_some, Bool.and_self, if_true]
  rw [guard, if_pos (.inl hsum.symm)]
  simp [guard]

/-- What the reader makes of a file. -/
def File.member (file : File) : Member := ⟨file.name, 48, file.data.length, file.data⟩

/-- A header is not all zeros, so it does not end the archive. -/
theorem header_nonzero : (header mode file).all (· = 0) = false := by
  rw [List.all_eq_false]
  refine ⟨48, ?_, by decide⟩
  rw [header, List.flatten_append, List.flatten_cons]
  refine List.mem_append_left _ (List.mem_append_right _ (List.mem_append_right _ ?_))
  rw [backFields, List.flatten_cons]
  exact List.mem_append_left _ List.mem_cons_self

/-- The blocks of the files are read, and at the block of zeros the reader stops. -/
theorem readFrom_files (hmode : mode < 8 ^ 7) {files : List File} (h : ∀ file ∈ files, file.Fits)
    {n : ℕ} (hn : blockSize ≤ n) {fuel : ℕ} (hfuel : files.length < fuel) (first : Bool) :
    readFrom fuel first (files.flatMap (fileBlocks mode) ++ zeros n) =
      some (files.map File.member) := by
  induction files generalizing fuel first with
  | nil =>
    obtain ⟨fuel, rfl⟩ : ∃ k, fuel = k + 1 := ⟨fuel - 1, by simp at hfuel; omega⟩
    have hlength : ¬ (zeros n).length < blockSize := by
      rw [zeros, List.length_replicate]
      omega
    have hzero : ((zeros n).take blockSize).all (· = 0) = true := by
      rw [List.all_eq_true]
      intro b hb
      exact decide_eq_true (List.eq_of_mem_replicate (List.mem_of_mem_take hb))
    simp only [List.flatMap_nil, List.nil_append, readFrom, if_neg hlength, hzero, if_true,
      List.map_nil]
  | cons file files ih =>
    obtain ⟨fuel, rfl⟩ : ∃ k, fuel = k + 1 := ⟨fuel - 1, by simp at hfuel; omega⟩
    have hfile := h file List.mem_cons_self
    have hrest := ih (fun other hother => h other (List.mem_cons_of_mem _ hother))
      (show files.length < fuel by simpa using hfuel) false
    let tail := files.flatMap (fileBlocks mode) ++ zeros n
    let filled := fill blockSize file.data.length
    have hraw : (file :: files).flatMap (fileBlocks mode) ++ zeros n =
        header mode file ++ (file.data ++ (filled ++ tail)) := by
      simp only [List.flatMap_cons, fileBlocks, List.append_assoc, filled, tail]
    have hlength : ¬ (header mode file ++ (file.data ++ (filled ++ tail))).length < blockSize := by
      rw [List.length_append, length_header]
      omega
    have htake : (header mode file ++ (file.data ++ (filled ++ tail))).take blockSize =
        header mode file := List.take_left' length_header
    have hdrop : (header mode file ++ (file.data ++ (filled ++ tail))).drop blockSize =
        file.data ++ (filled ++ tail) := List.drop_left' length_header
    have hspan : file.data.length + filled.length ≤ (file.data ++ (filled ++ tail)).length := by
      simp only [List.length_append]
      omega
    have hnext : (file.data ++ (filled ++ tail)).drop (file.data.length + filled.length) = tail := by
      rw [← List.append_assoc, ← List.length_append, List.drop_left]
    have hplain : extended 48 = false := by decide
    have hdata : hasData 48 = true := by decide
    rw [hraw, readFrom, htake, hdrop, if_neg hlength, header_nonzero,
      readHeader_header hmode hfile]
    simp only [Bool.false_eq_true, if_false, hplain, hdata, if_true, guard, Option.pure_def,
      Option.bind_eq_bind, Option.bind_some]
    rw [if_pos hspan, hnext, hrest, Option.bind_some, Option.bind_some, List.take_left]
    rfl

/-- An archive ends with blocks of zeros. -/
theorem write_eq (mode : ℕ) (files : List File) : ∃ n, blockSize ≤ n ∧
    write mode files = files.flatMap (fileBlocks mode) ++ zeros n := by
  let blocks := files.flatMap (fileBlocks mode) ++ zeros (2 * blockSize)
  let padding := (recordSize - blocks.length % recordSize) % recordSize
  refine ⟨2 * blockSize + padding, ?_, ?_⟩
  · rw [blockSize]
    omega
  · rw [write, fill, List.append_assoc, zeros, zeros, ← List.replicate_add, zeros]
    rfl

/-- An archive is read back. -/
theorem read_write (hmode : mode < 8 ^ 7) {files : List File} (h : ∀ file ∈ files, file.Fits) :
    read (write mode files) = some (files.map File.member) := by
  have hblocks : ∀ files : List File,
      files.length ≤ (files.flatMap (fileBlocks mode)).length := by
    intro files
    induction files with
    | nil => exact Nat.zero_le _
    | cons file files ih =>
      rw [List.flatMap_cons, List.length_append, fileBlocks, List.length_append, length_header,
        List.length_cons, blockSize]
      omega
  obtain ⟨n, hn, hwrite⟩ := write_eq mode files
  rw [read, hwrite]
  refine readFrom_files hmode h hn ?_ true
  have hlength := hblocks files
  rw [List.length_append]
  omega

end Tracewake.Archives.Ustar
