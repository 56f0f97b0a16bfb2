import Mathlib.Data.Nat.Bitwise
import Mathlib.Data.UInt
import Mathlib.Tactic.Ring

/-!
# Messages of numbered fields

A message is a sequence of fields with numbers, each of them a number in base 128 or a chunk
of bytes that is preceded by its length. A reader takes fields off the front of a buffer and
gives each of them to a handler. What was written is read back field by field.
-/

namespace Tracewake.WireFormat

abbrev Bytes := List UInt8

/-! ## Numbers -/

/-- Seven bits a byte, the lowest first. All bytes but the last have the high bit set. -/
def varint (n : ℕ) : Bytes :=
  if 0x7F < n then UInt8.ofNat (n &&& 0x7F ||| 0x80) :: varint (n >>> 7)
  else [UInt8.ofNat (n &&& 0x7F)]
termination_by n
decreasing_by
  rw [Nat.shiftRight_eq_div_pow]
  omega

/-- Why a buffer cannot be read. -/
inductive ReadError
  /-- `truncated varint`. -/
  | truncated
  /-- `varint too long`. -/
  | tooLong
  /-- A wire type that the message does not have. -/
  | wireType (wire field : ℕ)
  /-- A chunk that is no text. -/
  | notText
  /-- An index that a table does not have. -/
  | noIndex (index : ℕ)
  /-- `string_table[0] must be the empty string`. -/
  | stringTable
  deriving DecidableEq

/-- Read the rest of a number from its bits above `shift` on. -/
def readVarintFrom (shift value : ℕ) : Bytes → Except ReadError (ℕ × Bytes)
  | [] => .error .truncated
  | byte :: rest =>
    let value := value ||| (byte.toNat &&& 0x7F) <<< shift
    if byte.toNat &&& 0x80 = 0 then .ok (value, rest)
    else if 70 < shift + 7 then .error .tooLong
    else readVarintFrom (shift + 7) value rest

/-- Read a number off the front of a buffer. -/
def readVarint (buf : Bytes) : Except ReadError (ℕ × Bytes) :=
  readVarintFrom 0 0 buf

/-- The numbers that a reader accepts, of at most eleven bytes. -/
abbrev Readable (n : ℕ) : Prop := n < 2 ^ 77

section Numbers

/-- A small number is one byte. -/
theorem varint_last {n : ℕ} (h : n ≤ 0x7F) : varint n = [UInt8.ofNat n] := by
  rw [varint, if_neg (by omega)]
  have hlow : n &&& 0x7F = n := by
    rw [show 0x7F = 2 ^ 7 - 1 from rfl, Nat.and_two_pow_sub_one_eq_mod]
    exact Nat.mod_eq_of_lt (by omega)
  rw [hlow]

/-- A larger number is seven bits and the rest. -/
theorem varint_more {n : ℕ} (h : 0x7F < n) :
    varint n = UInt8.ofNat (n % 128 + 128) :: varint (n / 128) := by
  rw [varint, if_pos h, Nat.shiftRight_eq_div_pow]
  have hlow : n &&& 0x7F = n % 128 := by
    rw [show 0x7F = 2 ^ 7 - 1 from rfl, Nat.and_two_pow_sub_one_eq_mod]
  have hhigh : n % 128 ||| 0x80 = n % 128 + 128 := by
    have hor := Nat.two_pow_add_eq_or_of_lt (show n % 128 < 2 ^ 7 by omega) 1
    rw [Nat.or_comm, Nat.add_comm]
    exact hor.symm
  rw [hlow, hhigh]

/-- A number has at least one byte. -/
theorem varint_length_pos (n : ℕ) : 0 < (varint n).length := by
  rw [varint]
  split
  · simp
  · simp

/-- The bits of a byte that is not the last one. -/
theorem more_bits {n : ℕ} (h : n < 128) :
    (UInt8.ofNat (n + 128)).toNat &&& 0x7F = n ∧ (UInt8.ofNat (n + 128)).toNat &&& 0x80 ≠ 0 := by
  have hvalue : (UInt8.ofNat (n + 128)).toNat = n + 128 := by
    rw [UInt8.toNat_ofNat']
    omega
  rw [hvalue]
  constructor
  · rw [show 0x7F = 2 ^ 7 - 1 from rfl, Nat.and_two_pow_sub_one_eq_mod]
    omega
  · intro hzero
    have hbit : (n + 128).testBit 7 = true := by
      rw [Nat.testBit_eq_decide_div_mod_eq]
      exact decide_eq_true (by omega)
    have htest := congrArg (fun m => m.testBit 7) hzero
    simp only [Nat.testBit_and, hbit, Nat.zero_testBit] at htest
    exact absurd htest (by decide)

/-- The bits of the last byte. -/
theorem last_bits {n : ℕ} (h : n < 128) :
    (UInt8.ofNat n).toNat &&& 0x7F = n ∧ (UInt8.ofNat n).toNat &&& 0x80 = 0 := by
  have hvalue : (UInt8.ofNat n).toNat = n := by
    rw [UInt8.toNat_ofNat']
    omega
  rw [hvalue]
  constructor
  · rw [show 0x7F = 2 ^ 7 - 1 from rfl, Nat.and_two_pow_sub_one_eq_mod]
    omega
  · rw [show 0x80 = 2 ^ 7 from rfl, Nat.and_two_pow, Nat.testBit_lt_two_pow h]
    rfl

/-- The low bits and the high bits of a number make it up, wherever they are shifted to. -/
theorem shifted_bits (n shift : ℕ) :
    (n % 128) <<< shift ||| (n / 128) <<< (shift + 7) = n <<< shift := by
  have hbits : n % 128 ||| (n / 128) <<< 7 = n := by
    rw [Nat.or_comm, ← Nat.shiftLeft_add_eq_or_of_lt (show n % 128 < 2 ^ 7 by omega),
      Nat.shiftLeft_eq]
    omega
  rw [Nat.add_comm shift 7, Nat.shiftLeft_add, ← Nat.shiftLeft_or_distrib, hbits]

/-- What was written of a number from a shift on is read back. -/
theorem readVarintFrom_varint {n k : ℕ} (value : ℕ) (rest : Bytes) (hk : k ≤ 10)
    (hn : n < 2 ^ (77 - 7 * k)) :
    readVarintFrom (7 * k) value (varint n ++ rest) = .ok (value ||| n <<< (7 * k), rest) := by
  induction n using Nat.strongRecOn generalizing k value with
  | ind n ih =>
    by_cases hmore : 0x7F < n
    · obtain ⟨hlow, hhigh⟩ := more_bits (Nat.mod_lt n (by norm_num : 128 > 0))
      -- The eleventh byte has room for seven bits only.
      have hroom : k < 10 := by
        rcases hk.lt_or_eq with hlt | rfl
        · exact hlt
        · omega
      have hrest : n / 128 < 2 ^ (77 - 7 * (k + 1)) := by
        rw [Nat.div_lt_iff_lt_mul (by norm_num), show 128 = 2 ^ 7 from rfl, ← Nat.pow_add]
        exact hn.trans_le (Nat.pow_le_pow_right (by norm_num) (by omega))
      rw [varint_more hmore, List.cons_append, readVarintFrom]
      simp only [hlow]
      rw [if_neg hhigh, if_neg (by omega), ← Nat.mul_succ, ih (n / 128) (by omega) _ hroom hrest,
        Nat.or_assoc, Nat.mul_succ, shifted_bits]
    · obtain ⟨hlow, hhigh⟩ := last_bits (show n < 128 by omega)
      rw [varint_last (by omega), List.singleton_append, readVarintFrom]
      simp only [hlow]
      rw [if_pos hhigh]

/-- A number that was written is read back, and what follows it is left. -/
theorem readVarint_varint {n : ℕ} (hn : Readable n) (rest : Bytes) :
    readVarint (varint n ++ rest) = .ok (n, rest) := by
  have hread := readVarintFrom_varint (k := 0) 0 rest (by omega) hn
  rw [Nat.zero_or] at hread
  exact hread

end Numbers

/-! ## Fields -/

/-- What a field holds. -/
inductive Payload
  | number (value : ℕ)
  | chunk (bytes : Bytes)
  deriving DecidableEq

/-- A field of a message. -/
structure Field where
  number : ℕ
  payload : Payload
  deriving DecidableEq

/-- The tag of a field. -/
def tag (field wire : ℕ) : Bytes :=
  varint (field <<< 3 ||| wire)

/-- Write a field. -/
def Field.encode (field : Field) : Bytes :=
  match field.payload with
  | .number value => tag field.number 0 ++ varint value
  | .chunk bytes => tag field.number 2 ++ varint bytes.length ++ bytes

/-- Write a message. -/
def encode (fields : List Field) : Bytes :=
  fields.flatMap Field.encode

/-- How the reader of a message deals with its fields. `chunk` is absent where the message has
no chunks. -/
structure Handler (σ : Type) where
  number : ℕ → ℕ → σ → σ
  chunk : Option (ℕ → Bytes → σ → Except ReadError σ)

/-- Deal with a field. -/
def Handler.field {σ : Type} (handler : Handler σ) (state : σ) (field : Field) :
    Except ReadError σ :=
  match field.payload, handler.chunk with
  | .number value, _ => .ok (handler.number field.number value state)
  | .chunk bytes, some chunk => chunk field.number bytes state
  | .chunk _, none => .error (.wireType 2 field.number)

/-- The loop of a reader, for a number of rounds that the length of the buffer bounds. -/
def Handler.read {σ : Type} (handler : Handler σ) : ℕ → Bytes → σ → Except ReadError σ
  | _, [], state => .ok state
  | 0, _ :: _, _ => .error .truncated
  | rounds + 1, byte :: others, state => do
    let (key, buf) ← readVarint (byte :: others)
    let field := key >>> 3
    let wire := key &&& 7
    if wire = 0 then
      let (value, buf) ← readVarint buf
      handler.read rounds buf (handler.number field value state)
    else
      match handler.chunk with
      | none => .error (.wireType wire field)
      | some chunk =>
        if wire ≠ 2 then .error (.wireType wire field)
        else
          let (length, buf) ← readVarint buf
          let state ← chunk field (buf.take length) state
          handler.read rounds (buf.drop length) state

/-- Read a message. -/
def Handler.decode {σ : Type} (handler : Handler σ) (buf : Bytes) (state : σ) :
    Except ReadError σ :=
  handler.read buf.length buf state

/-- The field's numbers can be read. -/
def Field.Fits (field : Field) : Prop :=
  field.number < 2 ^ 74 ∧
    match field.payload with
    | .number value => Readable value
    | .chunk bytes => Readable bytes.length

section Fields

variable {σ : Type}

/-- No fields are no bytes. -/
@[simp] theorem encode_nil : encode [] = [] := rfl

/-- Fields are written one after the other. -/
@[simp] theorem encode_cons (field : Field) (fields : List Field) :
    encode (field :: fields) = field.encode ++ encode fields := List.flatMap_cons

/-- Two lists of fields are written one after the other. -/
@[simp] theorem encode_append (fields others : List Field) :
    encode (fields ++ others) = encode fields ++ encode others := List.flatMap_append

/-- A field has at least one byte. -/
theorem Field.encode_length_pos (field : Field) : 0 < field.encode.length := by
  have htag (wire : ℕ) : 0 < (tag field.number wire).length := varint_length_pos _
  unfold Field.encode
  split
  · have := htag 0
    rw [List.length_append]
    omega
  · have := htag 2
    rw [List.length_append, List.length_append]
    omega

/-- A message has no fewer bytes than fields. -/
theorem length_le_encode (fields : List Field) : fields.length ≤ (encode fields).length := by
  induction fields with
  | nil => exact le_rfl
  | cons field rest ih =>
    rw [encode_cons, List.length_append, List.length_cons]
    have := field.encode_length_pos
    omega

/-- A chunk is no longer than the message that it is in. -/
theorem chunk_length_le {fields : List Field} {number : ℕ} {bytes : Bytes}
    (h : ⟨number, .chunk bytes⟩ ∈ fields) : bytes.length ≤ (encode fields).length := by
  obtain ⟨before, after, rfl⟩ := List.append_of_mem h
  rw [encode_append, encode_cons, List.length_append, List.length_append]
  simp only [Field.encode, List.length_append]
  omega

/-- A tag is read as a number and a wire type. -/
theorem readVarint_tag {field wire : ℕ} (hfield : field < 2 ^ 74) (hwire : wire < 8)
    (rest : Bytes) :
    ∃ key, readVarint (tag field wire ++ rest) = .ok (key, rest) ∧ key >>> 3 = field ∧
      key &&& 7 = wire := by
  have hkey : field <<< 3 ||| wire = field * 8 + wire := by
    rw [← Nat.shiftLeft_add_eq_or_of_lt (show wire < 2 ^ 3 by omega), Nat.shiftLeft_eq]
  refine ⟨field <<< 3 ||| wire, readVarint_varint ?_ rest, ?_, ?_⟩
  · rw [Readable, hkey]
    omega
  · rw [hkey, Nat.shiftRight_eq_div_pow]
    omega
  · rw [hkey, show 7 = 2 ^ 3 - 1 from rfl, Nat.and_two_pow_sub_one_eq_mod]
    omega

/-- A reader takes one field off the front. -/
theorem Handler.read_field (handler : Handler σ) {field : Field} (hfits : field.Fits)
    (rounds : ℕ) (rest : Bytes) (state : σ) :
    handler.read (rounds + 1) (field.encode ++ rest) state =
      handler.field state field >>= handler.read rounds rest := by
  have hsome : ∃ byte others, field.encode ++ rest = byte :: others := by
    have hpos := field.encode_length_pos
    cases hencode : field.encode with
    | nil => simp [hencode] at hpos
    | cons byte others => exact ⟨byte, others ++ rest, rfl⟩
  obtain ⟨byte, others, hcons⟩ := hsome
  obtain ⟨hnumber, hpayload⟩ := hfits
  rw [hcons, Handler.read, ← hcons]
  obtain ⟨number, payload⟩ := field
  cases payload with
  | number value =>
    obtain ⟨key, hkey, hfield, hwire⟩ :=
      readVarint_tag hnumber (show 0 < 8 by omega) (varint value ++ rest)
    rw [Field.encode, List.append_assoc, hkey]
    simp only [bind, Except.bind, hfield, hwire, if_true, readVarint_varint hpayload]
    rfl
  | chunk bytes =>
    obtain ⟨key, hkey, hfield, hwire⟩ :=
      readVarint_tag hnumber (show 2 < 8 by omega) (varint bytes.length ++ (bytes ++ rest))
    rw [Field.encode, List.append_assoc, List.append_assoc, hkey]
    simp only [bind, Except.bind, hfield, hwire]
    cases hchunk : handler.chunk with
    | none => simp [Handler.field, hchunk]
    | some chunk =>
      simp [Handler.field, hchunk, readVarint_varint hpayload]

/-- What was written of a message is read back field by field. -/
theorem Handler.decode_encode (handler : Handler σ) {fields : List Field}
    (hfits : ∀ field ∈ fields, field.Fits) (state : σ) :
    handler.decode (encode fields) state = fields.foldlM handler.field state := by
  have hread : ∀ rounds ≥ (encode fields).length,
      handler.read rounds (encode fields) state = fields.foldlM handler.field state := by
    induction fields generalizing state with
    | nil =>
      intro rounds _
      cases rounds <;> rfl
    | cons field rest ih =>
      intro rounds hrounds
      rw [encode_cons, List.length_append] at hrounds
      have hpos := field.encode_length_pos
      obtain ⟨rounds, rfl⟩ := Nat.exists_eq_add_one_of_ne_zero (show rounds ≠ 0 by omega)
      rw [encode_cons, handler.read_field (hfits field List.mem_cons_self), List.foldlM_cons]
      refine congrArg _ (funext fun state => ?_)
      exact ih (fun other hother => hfits other (List.mem_cons_of_mem field hother)) state rounds
        (by omega)
  exact hread _ le_rfl

end Fields

end Tracewake.WireFormat
