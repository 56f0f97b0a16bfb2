import Mathlib.Data.List.Infix
import Mathlib.Algebra.Ring.Int.Defs
import Mathlib.Logic.Function.Basic
import Tracewake.JsonText.Number

/-!
# The local artifact store

Objects are files under their key and version, and URLs are signed over the method, the
key, the version, the digest, the size and the expiry. Go strings are lists of bytes, times
are nanoseconds, and SHA-256 and HMAC-SHA256 are parameters.
-/

namespace Tracewake.Artifacts

open JsonText (printInt)

/-- A Go string. -/
abbrev Bytes := List UInt8

/-- The bytes of a literal. -/
def bytes (text : String) : Bytes := text.toUTF8.toList

/-- The hash functions. -/
structure Hashing where
  /-- The SHA-256 digest of data. -/
  sha256 : Bytes → Bytes
  /-- The HMAC-SHA256 of data under a key. -/
  hmac : Bytes → Bytes → Bytes

/-- `Identity`. -/
structure Identity where
  key : Bytes
  version : Bytes
  deriving DecidableEq

/-- `Object`. -/
structure Object where
  key : Bytes
  version : Bytes
  digest : Bytes
  size : ℤ

/-- A stored file with the time of its last change. -/
structure File where
  data : Bytes
  modified : ℤ

/-- What is under the root: the versions of every key, and the files that were stored
directly at their key. -/
structure Disk where
  objects : Identity → Option File
  legacy : Bytes → Option File

/-- `Filesystem`: its signing key, its clock and its files. -/
structure Filesystem where
  hashing : Hashing
  signing : Bytes
  now : ℤ
  disk : Disk

/-- `MaxBundleSize`. -/
def MaxBundleSize : ℤ := 256 * 1024 * 1024

/-- `GrantLifetime`: fifteen minutes. -/
def GrantLifetime : ℤ := 15 * 60 * 1000000000

/-- The seconds of `time.Time.Unix`. -/
def unix (time : ℤ) : ℤ := time / 1000000000

/-- `time.Unix(seconds, 0)`. -/
def timeUnix (seconds : ℤ) : ℤ := seconds * 1000000000

/-- A hexadecimal digit of `hex.EncodeToString`. -/
def hexDigit (n : ℕ) : UInt8 :=
  if n < 10 then UInt8.ofNat (48 + n) else UInt8.ofNat (87 + n)

/-- `hex.EncodeToString`. -/
def hexEncode (data : Bytes) : Bytes :=
  data.flatMap fun b => [hexDigit (b.toNat / 16), hexDigit (b.toNat % 16)]

/-- The digits that `hex.DecodeString` accepts. -/
def isHexDigit (b : UInt8) : Bool :=
  (48 ≤ b && b ≤ 57) || (65 ≤ b && b ≤ 70) || (97 ≤ b && b ≤ 102)

/-- `strconv.FormatInt(n, 10)`. -/
def formatInt (n : ℤ) : Bytes := (printInt n).map fun c => UInt8.ofNat c.toNat

/-- `strconv.ParseInt(s, 10, 64)`: an optional sign and decimal digits, in range. -/
def parseInt (s : Bytes) : Option ℤ :=
  let negative := s.head? = some 45
  let digits := if negative ∨ s.head? = some 43 then s.tail else s
  if digits = [] ∨ !digits.all (fun b => 48 ≤ b && b ≤ 57) then none
  else
    let magnitude : ℤ := digits.foldl (fun n b => 10 * n + (b.toNat - 48 : ℕ)) 0
    let n := if negative then -magnitude else magnitude
    if -2 ^ 63 ≤ n ∧ n < 2 ^ 63 then some n else none

/-- One element of a path in `filepath.Clean`: `before` are the cleaned elements, the last
first. -/
def cleanElement (rooted : Bool) (before : List Bytes) (element : Bytes) : List Bytes :=
  if element = [] ∨ element = bytes "." then before
  else if element = bytes ".." then
    match before with
    | [] => if rooted then [] else [element]
    | last :: rest => if last = bytes ".." then element :: before else rest
  else element :: before

/-- `filepath.Clean`. -/
def clean (path : Bytes) : Bytes :=
  let rooted := path.head? = some 47
  let elements := ((path.splitOn 47).foldl (cleanElement rooted) []).reverse
  let cleaned := [47].intercalate elements
  if rooted then 47 :: cleaned else if cleaned = [] then bytes "." else cleaned

/-- `safeKey`. -/
def safeKey (key : Bytes) : Bool :=
  key ≠ [] && key.length ≤ 512 && key.head? ≠ some 47 && clean key = key &&
    !(bytes ".." <:+: key : Bool)

/-- `validDeclaration`. -/
def validDeclaration (key digest : Bytes) (size : ℤ) : Bool :=
  safeKey key && digest.length = 64 && 0 ≤ size && size ≤ MaxBundleSize

/-- `validVersion`: hexadecimal digits of a SHA-256 digest. -/
def validVersion (version : Bytes) : Bool :=
  version.all isHexDigit && version.length = 2 * 32

/-- The digest of data as a version. -/
def Hashing.version (hashing : Hashing) (data : Bytes) : Bytes :=
  hexEncode (hashing.sha256 data)

/-- What the signature of a URL is computed from. -/
structure Signed where
  method : Bytes
  key : Bytes
  version : Bytes
  digest : Bytes
  size : ℤ
  expires : ℤ
  deriving DecidableEq

/-- The fields in the order in which they are written, each with a NUL byte after it. -/
def Signed.message (fields : Signed) : Bytes :=
  [fields.method, fields.key, fields.version, fields.digest, formatInt fields.size,
    formatInt fields.expires].flatMap (· ++ [0])

/-- `sign`. -/
def Filesystem.sign (s : Filesystem) (fields : Signed) : Bytes :=
  hexEncode (s.hashing.hmac s.signing fields.message)

/-- `url.PathEscape` and `url.QueryEscape`, with the bytes that each keeps. -/
def escape (keeps : UInt8 → Bool) (text : Bytes) : Bytes :=
  text.flatMap fun b =>
    if keeps b then [b]
    else
      let upper (n : ℕ) := if n < 10 then UInt8.ofNat (48 + n) else UInt8.ofNat (55 + n)
      [37, upper (b.toNat / 16), upper (b.toNat % 16)]

/-- The bytes that no escaping touches. -/
def unreserved (b : UInt8) : Bool :=
  (48 ≤ b && b ≤ 57) || (65 ≤ b && b ≤ 90) || (97 ≤ b && b ≤ 122) ||
    (bytes "-_.~").contains b

/-- `escapeKey`: every segment is escaped on its own. -/
def escapeKey (key : Bytes) : Bytes :=
  [47].intercalate
    ((key.splitOn 47).map (escape fun b => unreserved b || (bytes "$&+=:@").contains b))

/-- `url.Values.Encode` of parameters that are already sorted. -/
def encodeQuery (values : List (Bytes × Bytes)) : Bytes :=
  let component (text : Bytes) :=
    (escape (fun b => unreserved b || b = 32) text).map fun b => if b = 32 then 43 else b
  [38].intercalate (values.map fun (name, value) => component name ++ [61] ++ component value)

/-- `signedURL`. -/
def Filesystem.signedURL (s : Filesystem) (fields : Signed) : Bytes :=
  let digest :=
    if fields.digest ≠ [] then [(bytes "digest", fields.digest)] else []
  let expires := [(bytes "expires", formatInt fields.expires)]
  let signature := [(bytes "signature", s.sign fields)]
  let size := if fields.digest ≠ [] then [(bytes "size", formatInt fields.size)] else []
  let version := if fields.version ≠ [] then [(bytes "version", fields.version)] else []
  bytes "/objects/" ++ escapeKey fields.key ++ [63] ++
    encodeQuery (digest ++ expires ++ signature ++ size ++ version)

/-- `Grant`, with the fields that its URL is signed over. -/
structure Grant where
  url : Bytes
  method : Bytes
  mediaType : Option Bytes
  expiresAt : ℤ
  fields : Signed
  deriving DecidableEq

/-- `PutGrant`. -/
def Filesystem.putGrant (s : Filesystem) (key digest : Bytes) (size : ℤ) (mediaType : Bytes) :
    Option Grant :=
  if !validDeclaration key digest size then none
  else
    let expires := s.now + GrantLifetime
    let fields : Signed := ⟨bytes "PUT", key, [], digest, size, unix expires⟩
    some ⟨s.signedURL fields, bytes "PUT", some mediaType, expires, fields⟩

/-- `GetGrant`. -/
def Filesystem.getGrant (s : Filesystem) (key version : Bytes) : Option Grant :=
  if !safeKey key || version.length ≠ 64 then none
  else
    let expires := s.now + GrantLifetime
    let fields : Signed := ⟨bytes "GET", key, version, [], 0, unix expires⟩
    some ⟨s.signedURL fields, bytes "GET", none, expires, fields⟩

/-- `openLegacyVersion`. -/
def Filesystem.openLegacyVersion (s : Filesystem) (key version : Bytes) : Option File :=
  (s.disk.legacy key).filter fun file => s.hashing.version file.data = version

/-- `openVersion`. -/
def Filesystem.openVersion (s : Filesystem) (key version : Bytes) : Option File :=
  if !safeKey key || !validVersion version then none
  else (s.disk.objects ⟨key, version⟩).orElse fun _ => s.openLegacyVersion key version

/-- `Put`: the bytes are published under their digest if they match the declaration. -/
def Filesystem.put (s : Filesystem) (key expectedDigest : Bytes) (expectedSize : ℤ)
    (input : Bytes) : Option (Object × Filesystem) :=
  if !validDeclaration key expectedDigest expectedSize then none
  else
    let data := input.take (expectedSize + 1).toNat
    let digest := s.hashing.version data
    if (data.length : ℤ) ≠ expectedSize then none
    else if digest ≠ expectedDigest then none
    else
      let objects := Function.update s.disk.objects ⟨key, expectedDigest⟩ (some ⟨data, s.now⟩)
      some (⟨key, digest, digest, data.length⟩, { s with disk := { s.disk with objects } })

/-- `Commit`: the stored bytes are read again. -/
def Filesystem.commit (s : Filesystem) (key version digest : Bytes) (size : ℤ) : Option Object :=
  if !validDeclaration key digest size || version ≠ digest then none
  else
    match s.openVersion key version with
    | none => none
    | some file =>
      let actual := s.hashing.version file.data
      if (file.data.length : ℤ) ≠ size ∨ actual ≠ digest then none
      else some ⟨key, actual, actual, file.data.length⟩

end Tracewake.Artifacts
