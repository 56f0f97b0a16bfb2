import Tracewake.Artifacts.Filesystem

/-!
# The handler of signed URLs

The handler reads the key from the path and the other fields from the query, and serves a
request whose signature is the one of these fields. Fields are told apart by NUL bytes. The
numbers have none, and what the store checks of digests and versions fixes their length, so
a request that is served with the signature of a grant has exactly the fields of the grant.
-/

namespace Tracewake.Artifacts

open JsonText (printInt readInt readInt_printInt)

/-- A request: its method, the escaped path and query of its URL, and its body. -/
structure Request where
  method : Bytes
  path : Bytes
  query : Bytes
  body : Bytes

/-- What the handler answers. -/
inductive Response where
  | noRoute
  | forbidden
  | badRequest
  | unavailable
  | created (object : Object)
  | content (version data : Bytes)

/-- The request was granted what it asked for. -/
def Response.accepted : Response → Bool
  | .created _ => true
  | .content _ _ => true
  | _ => false

/-- The value of a hexadecimal digit. -/
def unhex (b : UInt8) : UInt8 :=
  if b ≤ 57 then b - 48 else if b ≤ 70 then b - 55 else b - 87

/-- `url.PathUnescape` and, with `plus`, `url.QueryUnescape`. -/
def unescape (plus : Bool) : Bytes → Option Bytes
  | 37 :: a :: b :: rest =>
    if isHexDigit a && isHexDigit b then
      (unescape plus rest).map fun rest => (16 * unhex a + unhex b) :: rest
    else none
  | 37 :: _ => none
  | b :: rest => (unescape plus rest).map fun rest => (if plus && b = 43 then 32 else b) :: rest
  | [] => some []

/-- The rest of a text after a first part. -/
def afterPrefix (first text : Bytes) : Option Bytes :=
  if first <+: text then some (text.drop first.length) else none

/-- `Request.PathValue("key")` of the pattern `/objects/{key...}`. -/
def Request.key (r : Request) : Option Bytes :=
  (afterPrefix (bytes "/objects/") r.path).map fun rest => (unescape false rest).getD rest

/-- The parameters of `url.ParseQuery`: pairs with a semicolon or a bad escape are left out. -/
def Request.parameters (r : Request) : List (Bytes × Bytes) :=
  (r.query.splitOn 38).filterMap fun pair =>
    if pair = [] ∨ 59 ∈ pair then none
    else do
      let name ← unescape true (pair.takeWhile (· ≠ 61))
      let value ← unescape true (pair.dropWhile (· ≠ 61)).tail
      some (name, value)

/-- `URL.Query().Get`: the first value, or the empty text. -/
def Request.get (r : Request) (name : String) : Bytes :=
  ((r.parameters.find? fun parameter => parameter.1 = bytes name).map Prod.snd).getD []

/-- `authorized`. -/
def Filesystem.authorized (s : Filesystem) (r : Request) (method key version digest : Bytes)
    (size : ℤ) : Bool :=
  if !safeKey key then false
  else
    match parseInt (r.get "expires") with
    | none => false
    | some expires =>
      if timeUnix expires < s.now then false
      else s.sign ⟨method, key, version, digest, size, expires⟩ = r.get "signature"

/-- `serveUpload`. -/
def Filesystem.serveUpload (s : Filesystem) (r : Request) (key : Bytes) :
    Response × Filesystem :=
  let digest := r.get "digest"
  match parseInt (r.get "size") with
  | none => (.forbidden, s)
  | some size =>
    if !s.authorized r (bytes "PUT") key [] digest size then (.forbidden, s)
    else
      match s.put key digest size r.body with
      | none => (.badRequest, s)
      | some (object, s) => (.created object, s)

/-- `serveDownload`. -/
def Filesystem.serveDownload (s : Filesystem) (r : Request) (key : Bytes) :
    Response × Filesystem :=
  let version := r.get "version"
  if !s.authorized r (bytes "GET") key version [] 0 then (.forbidden, s)
  else
    match s.openVersion key version with
    | none => (.unavailable, s)
    | some file => (.content version file.data, s)

/-- `Handler`: the routes of the two patterns, of which `GET` also matches `HEAD`. -/
def Filesystem.handle (s : Filesystem) (r : Request) : Response × Filesystem :=
  match r.key with
  | none => (.noRoute, s)
  | some key =>
    if r.method = bytes "PUT" then s.serveUpload r key
    else if r.method = bytes "GET" ∨ r.method = bytes "HEAD" then s.serveDownload r key
    else (.noRoute, s)

/-- What a request asks for: an upload names no version, and a download neither digest nor
size. `HEAD` counts as `GET`. -/
def Request.asks (r : Request) : Option Signed := do
  let key ← r.key
  let expires ← parseInt (r.get "expires")
  if r.method = bytes "PUT" then
    let size ← parseInt (r.get "size")
    some ⟨bytes "PUT", key, [], r.get "digest", size, expires⟩
  else if r.method = bytes "GET" ∨ r.method = bytes "HEAD" then
    some ⟨bytes "GET", key, r.get "version", [], 0, expires⟩
  else none

/-! ## Fields and their bytes -/

/-- Decimal spellings are digits and a minus sign. -/
theorem printInt_toNat {n : ℤ} {c : Char} (h : c ∈ printInt n) : 0 < c.toNat ∧ c.toNat < 128 := by
  have hdigit : ∀ {d : Char}, d.isDigit = true → 0 < d.toNat ∧ d.toNat < 128 := by
    intro d hd
    simp only [Char.isDigit, Bool.and_eq_true, decide_eq_true_eq] at hd
    have hlow : (48 : ℕ) ≤ d.toNat := hd.1
    have hhigh : d.toNat ≤ (57 : ℕ) := hd.2
    omega
  cases n with
  | ofNat n => exact hdigit (JsonText.toDigits_isDigit h)
  | negSucc n =>
    rcases List.mem_cons.mp h with rfl | h
    · decide
    · exact hdigit (JsonText.toDigits_isDigit h)

/-- Different numbers are written differently. -/
theorem formatInt_injective : Function.Injective formatInt := by
  intro n n' h
  have hchars : printInt n = printInt n' := by
    have hback : ∀ k : ℤ, (formatInt k).map (fun b => Char.ofNat b.toNat) = printInt k := by
      intro k
      rw [formatInt, List.map_map]
      conv_rhs => rw [← List.map_id (printInt k)]
      refine List.map_congr_left fun c hc => ?_
      have hc := printInt_toNat hc
      simp only [Function.comp_apply, UInt8.toNat_ofNat', id]
      rw [Nat.mod_eq_of_lt (by omega), Char.ofNat_toNat]
    rw [← hback n, ← hback n', h]
  rw [← readInt_printInt n, ← readInt_printInt n', hchars]

/-- A number is written without a zero byte. -/
theorem zero_notMem_formatInt (n : ℤ) : (0 : UInt8) ∉ formatInt n := by
  intro hmem
  obtain ⟨c, hc, hzero⟩ := List.mem_map.mp hmem
  have hbounds := printInt_toNat hc
  have hvalue := congrArg UInt8.toNat hzero
  rw [UInt8.toNat_ofNat', Nat.mod_eq_of_lt (by omega)] at hvalue
  simp only [UInt8.toNat_ofNat] at hvalue
  omega

/-- Different digits are written differently. -/
theorem hexDigit_injective {a b : ℕ} (ha : a < 16) (hb : b < 16) (h : hexDigit a = hexDigit b) :
    a = b := by
  have hall : ∀ a < 16, ∀ b < 16, hexDigit a = hexDigit b → a = b := by decide
  exact hall a ha b hb h

/-- Different data have different hexadecimal digits. -/
theorem hexEncode_injective : Function.Injective hexEncode := by
  intro data data' h
  induction data generalizing data' with
  | nil =>
    cases data' with
    | nil => rfl
    | cons b' rest' => simp [hexEncode] at h
  | cons b rest ih =>
    cases data' with
    | nil => simp [hexEncode] at h
    | cons b' rest' =>
      simp only [hexEncode, List.flatMap_cons, List.cons_append, List.nil_append,
        List.cons.injEq] at h
      obtain ⟨hhigh, hlow, hrest⟩ := h
      have hb := b.toNat_lt
      have hb' := b'.toNat_lt
      have hhigh := hexDigit_injective (by omega) (by omega) hhigh
      have hlow := hexDigit_injective (by omega) (by omega) hlow
      have hbyte : b = b' := UInt8.toNat_inj.mp (by omega)
      rw [hbyte, ih hrest]

/-- Fields without NUL bytes end at the first one. -/
theorem append_zero_inj {a b x y : Bytes} (ha : (0 : UInt8) ∉ a) (hb : (0 : UInt8) ∉ b)
    (h : a ++ 0 :: x = b ++ 0 :: y) : a = b ∧ x = y := by
  induction a generalizing b with
  | nil =>
    cases b with
    | nil => exact ⟨rfl, (List.cons.inj h).2⟩
    | cons c b => exact absurd (by simp [(List.cons.inj h).1]) hb
  | cons c a ih =>
    cases b with
    | nil => exact absurd (by simp [(List.cons.inj h).1]) ha
    | cons d b =>
      obtain ⟨hcd, hrest⟩ := List.cons.inj h
      obtain ⟨hab, hxy⟩ := ih (fun hmem => ha (List.mem_cons_of_mem c hmem))
        (fun hmem => hb (List.mem_cons_of_mem d hmem)) hrest
      exact ⟨by rw [hcd, hab], hxy⟩

/-- The last field without NUL bytes begins after the last one. -/
theorem zero_append_inj {a b x y : Bytes} (ha : (0 : UInt8) ∉ a) (hb : (0 : UInt8) ∉ b)
    (h : x ++ 0 :: a = y ++ 0 :: b) : a = b ∧ x = y := by
  have hreverse : a.reverse ++ 0 :: x.reverse = b.reverse ++ 0 :: y.reverse := by
    simpa using congrArg List.reverse h
  obtain ⟨hab, hxy⟩ := append_zero_inj (by simpa using ha) (by simpa using hb) hreverse
  exact ⟨List.reverse_injective hab, List.reverse_injective hxy⟩

/-- The message of a signature joins the fields by zero bytes. -/
theorem message_eq (f : Signed) : f.message =
    f.method ++ 0 :: (f.key ++ 0 :: (f.version ++ 0 :: f.digest) ++ 0 :: formatInt f.size) ++
      0 :: formatInt f.expires ++ [0] := by
  simp [Signed.message]

/-- Equal messages agree in the numbers, which have no NUL bytes, and in the bytes of the
other fields together. -/
theorem message_inj {f g : Signed} (hf : (0 : UInt8) ∉ f.method) (hg : (0 : UInt8) ∉ g.method)
    (h : f.message = g.message) :
    f.method = g.method ∧ f.size = g.size ∧ f.expires = g.expires ∧
      f.key ++ 0 :: (f.version ++ 0 :: f.digest) = g.key ++ 0 :: (g.version ++ 0 :: g.digest) := by
  rw [message_eq, message_eq] at h
  have hfields := List.append_cancel_right h
  obtain ⟨hexpires, hrest⟩ :=
    zero_append_inj (zero_notMem_formatInt _) (zero_notMem_formatInt _) hfields
  obtain ⟨hmethod, hrest⟩ := append_zero_inj hf hg hrest
  obtain ⟨hsize, hrest⟩ :=
    zero_append_inj (zero_notMem_formatInt _) (zero_notMem_formatInt _) hrest
  exact ⟨hmethod, formatInt_injective hsize, formatInt_injective hexpires, hrest⟩

/-! ## What the handler checks -/

/-- What an authorized request asks for: its fields have its signature and are in time. An
upload names no version and a download no digest, and a request that is served names a
digest or a version of the right length. -/
structure Authorized (s : Filesystem) (r : Request) (f : Signed) : Prop where
  asks : r.asks = some f
  signature : s.sign f = r.get "signature"
  inTime : s.now ≤ timeUnix f.expires
  kind : (f.method = bytes "PUT" ∧ f.version = [] ∧
      ((s.handle r).1.accepted = true → f.digest.length = 64)) ∨
    (f.method = bytes "GET" ∧ f.digest = [] ∧
      ((s.handle r).1.accepted = true → f.version.length = 64))

/-- The fields that `authorized` compares. -/
theorem authorized_eq_true {s : Filesystem} {r : Request} {method key version digest : Bytes}
    {size : ℤ} (h : s.authorized r method key version digest size = true) :
    ∃ expires, parseInt (r.get "expires") = some expires ∧ s.now ≤ timeUnix expires ∧
      s.sign ⟨method, key, version, digest, size, expires⟩ = r.get "signature" := by
  unfold Filesystem.authorized at h
  split at h
  · cases h
  · cases hexpires : parseInt (r.get "expires") with
    | none => simp [hexpires] at h
    | some expires =>
      simp only [hexpires] at h
      split at h
      · cases h
      · next hlate => exact ⟨expires, rfl, Int.not_lt.mp hlate, by simpa using h⟩

/-- An upload is accepted only under a digest of 64 characters. -/
theorem put_digest_length {s : Filesystem} {key digest input : Bytes} {size : ℤ}
    (h : (s.put key digest size input).isSome = true) : digest.length = 64 := by
  unfold Filesystem.put at h
  split at h
  · cases h
  · next hvalid =>
    simp only [Bool.not_eq_true', Bool.not_eq_false, validDeclaration, Bool.and_eq_true,
      decide_eq_true_eq] at hvalid
    exact hvalid.1.1.2

/-- A version that can be opened has 64 characters. -/
theorem openVersion_version_length {s : Filesystem} {key version : Bytes}
    (h : (s.openVersion key version).isSome = true) : version.length = 64 := by
  unfold Filesystem.openVersion at h
  split at h
  · cases h
  · next hvalid =>
    simp only [Bool.or_eq_true, Bool.not_eq_true', not_or, Bool.not_eq_false, validVersion,
      Bool.and_eq_true, decide_eq_true_eq] at hvalid
    exact hvalid.2.2

/-- An upload that is not forbidden was authorized. -/
theorem serveUpload_authorized {s : Filesystem} {r : Request} {key : Bytes} (hkey : r.key = some key)
    (hmethod : r.method = bytes "PUT") (h : (s.serveUpload r key).1 ≠ .forbidden) :
    ∃ f, Authorized s r f := by
  have hhandle : s.handle r = s.serveUpload r key := by simp [Filesystem.handle, hkey, hmethod]
  unfold Filesystem.serveUpload at h
  cases hsize : parseInt (r.get "size") with
  | none => simp [hsize] at h
  | some size =>
    simp only [hsize] at h
    split at h
    · exact absurd rfl h
    · next hauthorized =>
      have hauthorized : s.authorized r (bytes "PUT") key [] (r.get "digest") size = true := by
        simpa using hauthorized
      obtain ⟨expires, hexpires, htime, hsign⟩ := authorized_eq_true hauthorized
      refine ⟨⟨bytes "PUT", key, [], r.get "digest", size, expires⟩, ?_, hsign, htime,
        .inl ⟨rfl, rfl, fun haccepted => ?_⟩⟩
      · simp [Request.asks, hkey, hexpires, hmethod, hsize]
      · have hstored : (s.put key (r.get "digest") size r.body).isSome = true := by
          rw [hhandle] at haccepted
          simp only [Filesystem.serveUpload, hsize, hauthorized] at haccepted
          cases hput : s.put key (r.get "digest") size r.body with
          | none => simp [hput, Response.accepted] at haccepted
          | some stored => rfl
        exact put_digest_length hstored

/-- A download that is not forbidden was authorized. -/
theorem serveDownload_authorized {s : Filesystem} {r : Request} {key : Bytes}
    (hkey : r.key = some key) (hput : r.method ≠ bytes "PUT")
    (hmethod : r.method = bytes "GET" ∨ r.method = bytes "HEAD")
    (h : (s.serveDownload r key).1 ≠ .forbidden) : ∃ f, Authorized s r f := by
  have hhandle : s.handle r = s.serveDownload r key := by
    simp only [Filesystem.handle, hkey, if_neg hput, if_pos hmethod]
  unfold Filesystem.serveDownload at h
  simp only at h
  split at h
  · exact absurd rfl h
  · next hauthorized =>
    have hauthorized : s.authorized r (bytes "GET") key (r.get "version") [] 0 = true := by
      simpa using hauthorized
    obtain ⟨expires, hexpires, htime, hsign⟩ := authorized_eq_true hauthorized
    refine ⟨⟨bytes "GET", key, r.get "version", [], 0, expires⟩, ?_, hsign, htime,
      .inr ⟨rfl, rfl, fun haccepted => ?_⟩⟩
    · simp only [Request.asks, hkey, hexpires, Option.bind_eq_bind, Option.bind_some, if_neg hput,
        if_pos hmethod]
    · have hfound : (s.openVersion key (r.get "version")).isSome = true := by
        rw [hhandle] at haccepted
        simp only [Filesystem.serveDownload, hauthorized] at haccepted
        cases hopen : s.openVersion key (r.get "version") with
        | none => simp [hopen, Response.accepted] at haccepted
        | some file => rfl
      exact openVersion_version_length hfound

/-- A request that is routed and not forbidden is authorized for what it asks. -/
theorem handle_authorized {s : Filesystem} {r : Request} (hroute : (s.handle r).1 ≠ .noRoute)
    (hforbidden : (s.handle r).1 ≠ .forbidden) : ∃ f, Authorized s r f := by
  unfold Filesystem.handle at hroute hforbidden
  cases hkey : r.key with
  | none => simp [hkey] at hroute
  | some key =>
    simp only [hkey] at hroute hforbidden
    split at hforbidden
    · next hmethod => exact serveUpload_authorized hkey hmethod hforbidden
    · next hput =>
      split at hforbidden
      · next hmethod => exact serveDownload_authorized hkey hput hmethod hforbidden
      · next hother =>
        rw [if_neg hput, if_neg hother] at hroute
        exact absurd rfl hroute

/-! ## Grants -/

/-- The store, at some time and with some files, minted the grant. -/
def Minted (s : Filesystem) (grant : Grant) : Prop :=
  (∃ key digest size mediaType, s.putGrant key digest size mediaType = some grant) ∨
    ∃ key version, s.getGrant key version = some grant

/-- A grant is signed over its method, for an upload over a digest and for a download over
a version, of the right length. -/
theorem Minted.kind {s : Filesystem} {grant : Grant} (h : Minted s grant) :
    timeUnix grant.fields.expires ≤ grant.expiresAt ∧ grant.fields.method = grant.method ∧
      ((grant.fields.method = bytes "PUT" ∧ grant.fields.version = [] ∧
          grant.fields.digest.length = 64) ∨
        (grant.fields.method = bytes "GET" ∧ grant.fields.digest = [] ∧
          grant.fields.size = 0 ∧ grant.fields.version.length = 64)) := by
  have htime : ∀ t : ℤ, timeUnix (unix t) ≤ t := by
    intro t
    simp only [timeUnix, unix]
    omega
  rcases h with ⟨key, digest, size, mediaType, h⟩ | ⟨key, version, h⟩
  · unfold Filesystem.putGrant at h
    split at h
    · cases h
    · next hvalid =>
      simp only [Bool.not_eq_true', Bool.not_eq_false, validDeclaration, Bool.and_eq_true,
        decide_eq_true_eq] at hvalid
      obtain rfl := Option.some.inj h
      exact ⟨htime _, rfl, .inl ⟨rfl, rfl, hvalid.1.1.2⟩⟩
  · unfold Filesystem.getGrant at h
    split at h
    · cases h
    · next hvalid =>
      simp only [Bool.or_eq_true, Bool.not_eq_true', not_or, decide_eq_true_eq,
        not_not] at hvalid
      obtain rfl := Option.some.inj h
      exact ⟨htime _, rfl, .inr ⟨rfl, rfl, rfl, hvalid.2⟩⟩

/-- The signature of a grant is that of an authorized request only for the same message. -/
theorem Authorized.message_eq {s₀ s : Filesystem} {r : Request} {f : Signed} {grant : Grant}
    (h : Authorized s r f) (hhashing : s.hashing = s₀.hashing) (hsigning : s.signing = s₀.signing)
    (hinjective : Function.Injective (s₀.hashing.hmac s₀.signing))
    (hsignature : r.get "signature" = s₀.sign grant.fields) :
    f.message = grant.fields.message := by
  have hsign := h.signature
  rw [hsignature, Filesystem.sign, Filesystem.sign, hhashing, hsigning] at hsign
  exact hinjective (hexEncode_injective hsign)

/-- Methods are routed before the signature, and have no NUL bytes. -/
theorem zero_notMem_method {method : Bytes} (h : method = bytes "PUT" ∨ method = bytes "GET") :
    (0 : UInt8) ∉ method := by
  rcases h with rfl | rfl <;> decide +kernel

/-- The fields of a grant agree with those of an authorized request with its signature
where the lengths of the digest and the version agree. -/
theorem Authorized.fields_eq {s₀ s : Filesystem} {r : Request} {f : Signed} {grant : Grant}
    (h : Authorized s r f) (hminted : Minted s₀ grant) (hmessage : f.message = grant.fields.message)
    (hsplit : f.method = grant.fields.method →
      f.key ++ 0 :: (f.version ++ 0 :: f.digest) =
        grant.fields.key ++ 0 :: (grant.fields.version ++ 0 :: grant.fields.digest) →
      f.key = grant.fields.key ∧ f.version = grant.fields.version ∧
        f.digest = grant.fields.digest) :
    f = grant.fields := by
  have hmethod : f.method = bytes "PUT" ∨ f.method = bytes "GET" :=
    h.kind.imp (fun h => h.1) fun h => h.1
  have hmethod' : grant.fields.method = bytes "PUT" ∨ grant.fields.method = bytes "GET" :=
    hminted.kind.2.2.imp (fun h => h.1) fun h => h.1
  obtain ⟨hmethods, hsize, hexpires, hrest⟩ :=
    message_inj (zero_notMem_method hmethod) (zero_notMem_method hmethod') hmessage
  obtain ⟨hkey, hversion, hdigest⟩ := hsplit hmethods hrest
  cases f with
  | mk method key version digest size expires =>
    cases hfields : grant.fields with
    | mk method' key' version' digest' size' expires' =>
      simp only [hfields] at hmethods hsize hexpires hkey hversion hdigest
      rw [hmethods, hsize, hexpires, hkey, hversion, hdigest]

/-- The two methods are different. -/
theorem put_ne_get : bytes "PUT" ≠ bytes "GET" := by decide +kernel

/-- What a request that is served asks for is split like the grant: the digest and the
version have the same lengths. -/
theorem split_of_accepted {s₀ s : Filesystem} {r : Request} {f : Signed} {grant : Grant}
    (h : Authorized s r f) (hminted : Minted s₀ grant)
    (haccepted : (s.handle r).1.accepted = true) (hmethod : f.method = grant.fields.method)
    (hrest : f.key ++ 0 :: (f.version ++ 0 :: f.digest) =
      grant.fields.key ++ 0 :: (grant.fields.version ++ 0 :: grant.fields.digest)) :
    f.key = grant.fields.key ∧ f.version = grant.fields.version ∧
      f.digest = grant.fields.digest := by
  rcases h.kind with ⟨hput, hversion, hlength⟩ | ⟨hget, hdigest, hlength⟩
  · rcases hminted.kind.2.2 with ⟨_, hversion', hlength'⟩ | ⟨hget', _, _, _⟩
    · rw [hversion, hversion'] at hrest
      obtain ⟨hkey, htail⟩ := List.append_inj' hrest (by simp [hlength haccepted, hlength'])
      exact ⟨hkey, by rw [hversion, hversion'], (List.cons.inj (List.cons.inj htail).2).2⟩
    · exact absurd (hput.symm.trans (hmethod.trans hget')) put_ne_get
  · rcases hminted.kind.2.2 with ⟨hput', _, _⟩ | ⟨_, hdigest', _, hlength'⟩
    · exact absurd (hput'.symm.trans (hmethod.symm.trans hget)) put_ne_get
    · rw [hdigest, hdigest'] at hrest
      obtain ⟨hkey, htail⟩ := List.append_inj' hrest (by simp [hlength haccepted, hlength'])
      exact ⟨hkey, List.append_cancel_right (List.cons.inj htail).2, by rw [hdigest, hdigest']⟩

/-- The same without the checks of the store, for a grant whose fields have no NUL bytes:
then neither have those of the request, because the separators are as many. -/
theorem split_of_zero_notMem {f : Signed} {grant : Grant} (hkey : (0 : UInt8) ∉ grant.fields.key)
    (hversion : (0 : UInt8) ∉ grant.fields.version) (hdigest : (0 : UInt8) ∉ grant.fields.digest)
    (hrest : f.key ++ 0 :: (f.version ++ 0 :: f.digest) =
      grant.fields.key ++ 0 :: (grant.fields.version ++ 0 :: grant.fields.digest)) :
    f.key = grant.fields.key ∧ f.version = grant.fields.version ∧
      f.digest = grant.fields.digest := by
  have hcount := congrArg (List.count 0) hrest
  simp only [List.count_append, List.count_cons_self, List.count_eq_zero_of_not_mem hkey,
    List.count_eq_zero_of_not_mem hversion, List.count_eq_zero_of_not_mem hdigest] at hcount
  have hkey' : (0 : UInt8) ∉ f.key := List.count_eq_zero.mp (by omega)
  have hversion' : (0 : UInt8) ∉ f.version := List.count_eq_zero.mp (by omega)
  obtain ⟨hkeys, htail⟩ := append_zero_inj hkey' hkey hrest
  obtain ⟨hversions, hdigests⟩ := append_zero_inj hversion' hversion htail
  exact ⟨hkeys, hversions, hdigests⟩

/-- A signed URL authorizes only what it was minted for. A request that carries the
signature of a grant and is served asks for exactly the method, key, version, digest and
size of the grant, before its expiry. Where the fields of the grant have no NUL bytes, the
same holds of every such request that is not refused by the signature. -/
theorem signed_url_exact (s₀ s : Filesystem) (grant : Grant) (r : Request)
    (hinjective : Function.Injective (s₀.hashing.hmac s₀.signing))
    (hhashing : s.hashing = s₀.hashing) (hsigning : s.signing = s₀.signing)
    (hminted : Minted s₀ grant) (hsignature : r.get "signature" = s₀.sign grant.fields) :
    ((s.handle r).1.accepted = true ∨
        (0 : UInt8) ∉ grant.fields.key ∧ (0 : UInt8) ∉ grant.fields.version ∧
          (0 : UInt8) ∉ grant.fields.digest ∧
          (s.handle r).1 ≠ .noRoute ∧ (s.handle r).1 ≠ .forbidden) →
      r.asks = some grant.fields ∧ grant.fields.method = grant.method ∧
        s.now ≤ timeUnix grant.fields.expires ∧
        timeUnix grant.fields.expires ≤ grant.expiresAt := by
  intro hserved
  have hroute : (s.handle r).1 ≠ .noRoute ∧ (s.handle r).1 ≠ .forbidden := by
    rcases hserved with haccepted | ⟨_, _, _, hroute⟩
    · constructor <;> intro hresponse <;> rw [hresponse] at haccepted <;> cases haccepted
    · exact hroute
  obtain ⟨f, hf⟩ := handle_authorized hroute.1 hroute.2
  have hmessage := hf.message_eq hhashing hsigning hinjective hsignature
  have hfields : f = grant.fields := by
    apply hf.fields_eq hminted hmessage
    intro hmethod hrest
    rcases hserved with haccepted | ⟨hkey, hversion, hdigest, _⟩
    · exact split_of_accepted hf hminted haccepted hmethod hrest
    · exact split_of_zero_notMem hkey hversion hdigest hrest
  obtain ⟨hexpiry, hmethod, _⟩ := hminted.kind
  rw [← hfields]
  exact ⟨hf.asks, hfields ▸ hmethod, hf.inTime, hfields ▸ hexpiry⟩

/-! ## One object -/

/-- The digest of the object. -/
def demoDigest : Bytes :=
  [58, 110, 176, 121, 15, 57, 172, 135, 201, 79, 56, 86, 178, 221, 44, 93,
    17, 14, 104, 17, 96, 34, 97, 169, 169, 35, 211, 187, 35, 173, 200, 183]

/-- The fields of a grant to read it. -/
def demoFields : Signed :=
  ⟨bytes "GET", bytes "k", hexEncode demoDigest, [], 0, 900⟩

/-- The HMAC of these fields under the key of the store. Other messages are kept apart. -/
def demoHashing : Hashing where
  sha256 _ := demoDigest
  hmac _ message :=
    if message = demoFields.message then
      [72, 53, 58, 140, 99, 130, 145, 60, 172, 201, 161, 76, 221, 158, 227, 215,
        168, 39, 144, 61, 7, 29, 39, 66, 9, 207, 64, 20, 89, 221, 86, 221]
    else List.replicate 33 0 ++ message

/-- A store with one object. -/
def demoStore : Filesystem where
  hashing := demoHashing
  signing := (List.range 32).map UInt8.ofNat
  now := 0
  disk :=
    { objects := fun identity =>
        if identity = ⟨bytes "k", hexEncode demoDigest⟩ then some ⟨bytes "data", 0⟩ else none
      legacy := fun _ => none }

/-- The grant that the store mints. -/
def demoGrant : Grant :=
  ⟨demoStore.signedURL demoFields, bytes "GET", none, GrantLifetime, demoFields⟩

/-- A request of the minted URL. -/
def demoDownload : Request :=
  ⟨bytes "GET", bytes "/objects/k", (demoGrant.url.dropWhile (· ≠ 63)).tail, []⟩

/-- The hash of the example has no collisions. -/
theorem demoHashing_injective (key : Bytes) : Function.Injective (demoHashing.hmac key) := by
  intro a b h
  simp only [demoHashing] at h
  split at h <;> split at h
  · next ha hb => rw [ha, hb]
  · exact absurd (congrArg List.length h) (by simp)
  · exact absurd (congrArg List.length h) (by simp)
  · exact List.append_cancel_left h

/-- In the example the URL that was signed is accepted for what it was signed for. -/
theorem signed_url_exact_demo :
    demoDownload.asks = some demoGrant.fields ∧ demoGrant.fields.method = demoGrant.method ∧
      demoStore.now ≤ timeUnix demoGrant.fields.expires ∧
      timeUnix demoGrant.fields.expires ≤ demoGrant.expiresAt :=
  signed_url_exact demoStore demoStore demoGrant demoDownload (demoHashing_injective _) rfl rfl
    (.inr ⟨bytes "k", hexEncode demoDigest, by decide +kernel⟩) (by decide +kernel)
    (.inl (by decide +kernel))

end Tracewake.Artifacts
