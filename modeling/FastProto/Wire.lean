import FastProto.Lib.Cursor
import FastProto.Lib.Word

/-! # The wire format (`src/wire/mod.rs`)

Varints, fixed-width numbers, length-delimited chunks and field tags: the `Reader` methods and the
writers that append to a buffer. Rust's `Vec<u8>` and `&[u8]` are lists of bytes; machine integers
keep their width. A reader method takes the reader and returns the value with the moved reader. -/

namespace FastProto

open Lib Lib.Cursor

/-- A byte buffer. -/
abbrev Bytes := List UInt8

/-- The largest length a Rust `Vec` can have, `isize::MAX`. -/
def isizeMax : Nat := 2 ^ 63 - 1

/-- Protobuf wire types (the low 3 bits of a field tag). -/
inductive WireType where
  | varint
  | i64
  | len
  | i32
  deriving DecidableEq, Repr

/-- The numeric code of a wire type. -/
def WireType.toU64 : WireType → UInt64
  | .varint => 0
  | .i64 => 1
  | .len => 2
  | .i32 => 5

/-- The wire type with a numeric code. -/
def WireType.fromU64 (value : UInt64) : Option WireType :=
  if value = 0 then some .varint
  else if value = 1 then some .i64
  else if value = 2 then some .len
  else if value = 5 then some .i32
  else none

/-- Error raised while decoding malformed wire data. -/
inductive WireError where
  | unexpectedEof
  | varintOverflow
  | invalidWireType (code : UInt64)
  | invalidLength
  | invalidFieldNumber (number : UInt64)
  deriving DecidableEq, Repr

/-- The largest legal protobuf field number. -/
def maxFieldNumber : UInt64 := ((1 : UInt64) <<< 29) - 1

/-- Cursor over an input buffer that reads wire primitives. -/
abbrev Reader := Cursor UInt8

/-- A method of `Reader`: it moves the cursor and returns a value, or fails. -/
abbrev ReadM := Scan UInt8 WireError

namespace Reader

/-- A reader at the start of a buffer. -/
def new (buf : Bytes) : Reader := ⟨buf, 0⟩

/-- Read one byte. -/
def nextByte : ReadM UInt8 := Cursor.next .unexpectedEof

/-- The `for shift in (7..64).step_by(7)` loop of `read_varint`. -/
def readVarintLoop (result : UInt64) : List Nat → ReadM UInt64
  | [] => throw .varintOverflow
  | shift :: shifts => do
      let byte ← nextByte
      let result := result ||| ((byte &&& 0x7f).toUInt64 <<< UInt64.ofNat shift)
      if byte &&& 0x80 = 0 then pure result else readVarintLoop result shifts

/-- Read a base-128 varint as a raw u64, with a fast path for one byte. -/
def readVarint : ReadM UInt64 := do
  let first ← nextByte
  if first &&& 0x80 = 0 then pure first.toUInt64
  else readVarintLoop (first &&& 0x7f).toUInt64 [7, 14, 21, 28, 35, 42, 49, 56, 63]

/-- Read a field tag, returning `(field_number, wire_type)`. -/
def readTag : ReadM (UInt32 × WireType) := do
  let key ← readVarint
  match WireType.fromU64 (key &&& 0x7) with
  | none => throw (.invalidWireType (key &&& 0x7))
  | some wire =>
      let field := key >>> 3
      if field = 0 ∨ field > maxFieldNumber then throw (.invalidFieldNumber field)
      else pure (field.toUInt32, wire)

/-- Read a little-endian fixed 32-bit value. -/
def readFixed32 : ReadM UInt32 := do
  let bytes ← Cursor.takeSlice .unexpectedEof 4
  pure (UInt32.ofNat (fromLeBytes bytes))

/-- Read a little-endian fixed 64-bit value. -/
def readFixed64 : ReadM UInt64 := do
  let bytes ← Cursor.takeSlice .unexpectedEof 8
  pure (UInt64.ofNat (fromLeBytes bytes))

/-- Read a length-delimited chunk. The `checked_add` of position and length is left to the bounds
check, which fails the same way on every buffer that fits a `usize`
(`readLenDelimited_checked`). -/
def readLenDelimited : ReadM Bytes := do
  let len ← readVarint
  Cursor.takeSlice .invalidLength len.toNat

/-- Skip a field of the given wire type (used for unknown fields). -/
def skip : WireType → ReadM Unit
  | .varint => do let _ ← readVarint; pure ()
  | .i64 => do let _ ← readFixed64; pure ()
  | .i32 => do let _ ← readFixed32; pure ()
  | .len => do let _ ← readLenDelimited; pure ()

end Reader

/-! ## Writers -/

/-- The `loop` of `write_varint`: the groups it stores in the scratch array, of which `slots` are
still free. -/
def varintGroups : Nat → UInt64 → Bytes
  | 0, _ => []
  | slots + 1, value =>
      let byte := (value &&& 0x7f).toUInt8
      let value := value >>> 7
      if value = 0 then [byte] else (byte ||| 0x80) :: varintGroups slots value

/-- Append a base-128 varint to `buf`; the scratch array has ten slots. -/
def writeVarint (buf : Bytes) (value : UInt64) : Bytes :=
  if value < 0x80 then buf ++ [value.toUInt8]
  else buf ++ varintGroups 10 value

/-- The number of bytes `writeVarint` emits for `value`: `64 - leading_zeros(value | 1)` is the
number of used bits. -/
def varintLen (value : UInt64) : Nat :=
  ((value ||| 1).toNat.log2 + 1 + 6) / 7

/-- Append a field tag built from a field number and wire type. -/
def writeTag (buf : Bytes) (field : UInt32) (wire : WireType) : Bytes :=
  writeVarint buf ((field.toUInt64 <<< 3) ||| wire.toU64)

/-- Append a little-endian fixed 32-bit value. -/
def writeFixed32 (buf : Bytes) (value : UInt32) : Bytes :=
  buf ++ toLeBytes 4 value.toNat

/-- Append a little-endian fixed 64-bit value. -/
def writeFixed64 (buf : Bytes) (value : UInt64) : Bytes :=
  buf ++ toLeBytes 8 value.toNat

/-- Append a length-delimited chunk (length varint followed by bytes). -/
def writeLenDelimited (buf data : Bytes) : Bytes :=
  writeVarint buf (UInt64.ofNat data.length) ++ data

/-- Reserve a one-byte slot for the length of a length-delimited field, and return its position. -/
def beginLenPrefix (buf : Bytes) : Bytes × Nat :=
  (buf ++ [0], (buf ++ [0]).length - 1)

/-- `buf.copy_within(src..src + len, dst)`: an overlapping copy inside the buffer. -/
def copyWithin (buf : Bytes) (src len dst : Nat) : Bytes :=
  buf.take dst ++ (buf.drop src).take len ++ buf.drop (dst + len)

/-- The `while v >= 0x80` loop of `finish_len_prefix`, for at most `fuel` rounds. -/
def patchVarint : Nat → Bytes → Nat → UInt64 → Bytes
  | 0, buf, _, _ => buf
  | fuel + 1, buf, pos, v =>
      if v ≥ 0x80 then
        patchVarint fuel (buf.set pos ((v.toUInt8 &&& 0x7f) ||| 0x80)) (pos + 1) (v >>> 7)
      else buf.set pos v.toUInt8

/-- Patch the length slot reserved by `beginLenPrefix`: payloads of 128 bytes or more are shifted
right to make room for the full length varint. -/
def finishLenPrefix (buf : Bytes) (lenPos : Nat) : Bytes :=
  let payloadLen := buf.length - lenPos - 1
  if payloadLen < 0x80 then buf.set lenPos (UInt8.ofNat payloadLen)
  else
    let extra := varintLen (UInt64.ofNat payloadLen) - 1
    let buf := buf ++ List.replicate extra 0
    let buf := copyWithin buf (lenPos + 1) payloadLen (lenPos + 1 + extra)
    patchVarint 10 buf lenPos (UInt64.ofNat payloadLen)

/-- Zig-zag encode a signed 32-bit integer (for `sint32`). -/
def zigzagEncode32 (value : Int32) : UInt32 := ((value <<< 1) ^^^ (value >>> 31)).toUInt32

/-- Zig-zag decode to a signed 32-bit integer. -/
def zigzagDecode32 (value : UInt32) : Int32 := (value >>> 1).toInt32 ^^^ -(value &&& 1).toInt32

/-- Zig-zag encode a signed 64-bit integer (for `sint64`). -/
def zigzagEncode64 (value : Int64) : UInt64 := ((value <<< 1) ^^^ (value >>> 63)).toUInt64

/-- Zig-zag decode to a signed 64-bit integer. -/
def zigzagDecode64 (value : UInt64) : Int64 := (value >>> 1).toInt64 ^^^ -(value &&& 1).toInt64

/-- `zigzag_decode32` undoes `zigzag_encode32`. -/
@[simp] theorem zigzagDecode32_zigzagEncode32 (value : Int32) :
    zigzagDecode32 (zigzagEncode32 value) = value := by
  apply Int32.toBitVec.inj
  simpa [zigzagEncode32, zigzagDecode32] using unzigzag_zigzag (w := 31) value.toBitVec

/-- `zigzag_decode64` undoes `zigzag_encode64`. -/
@[simp] theorem zigzagDecode64_zigzagEncode64 (value : Int64) :
    zigzagDecode64 (zigzagEncode64 value) = value := by
  apply Int64.toBitVec.inj
  simpa [zigzagEncode64, zigzagDecode64] using unzigzag_zigzag (w := 63) value.toBitVec

/-! ## Readers are framed -/

namespace Reader

/-- `next_byte` is decided by the byte it consumes. -/
theorem framed_nextByte : Framed nextByte := framed_next _

/-- `next_byte` consumes a byte. -/
theorem advances_nextByte : Advances nextByte := advances_next _

/-- The varint loop is decided by the bytes it consumes. -/
theorem framed_readVarintLoop (shifts : List Nat) :
    ∀ result, Framed (readVarintLoop result shifts) := by
  induction shifts with
  | nil => intro result; exact Framed.throw _
  | cons shift shifts ih =>
      intro result
      exact framed_nextByte.bind fun byte => (Framed.pure _).ite (ih _)

/-- `read_varint` is decided by the bytes it consumes. -/
theorem framed_readVarint : Framed readVarint :=
  framed_nextByte.bind fun _ => (Framed.pure _).ite (framed_readVarintLoop _ _)

/-- `read_varint` consumes a byte. -/
theorem advances_readVarint : Advances readVarint :=
  Advances.bind framed_nextByte advances_nextByte

/-- `read_tag` is decided by the bytes it consumes. -/
theorem framed_readTag : Framed readTag := by
  refine framed_readVarint.bind fun key => ?_
  cases WireType.fromU64 (key &&& 0x7) with
  | none => exact Framed.throw _
  | some wire => exact (Framed.throw _).ite (Framed.pure _)

/-- `read_tag` consumes a byte. -/
theorem advances_readTag : Advances readTag :=
  Advances.bind framed_readVarint advances_readVarint

/-- `read_fixed32` is decided by the bytes it consumes. -/
theorem framed_readFixed32 : Framed readFixed32 :=
  (framed_takeSlice _ 4).bind fun _ => Framed.pure _

/-- `read_fixed64` is decided by the bytes it consumes. -/
theorem framed_readFixed64 : Framed readFixed64 :=
  (framed_takeSlice _ 8).bind fun _ => Framed.pure _

/-- `read_len_delimited` is decided by the bytes it consumes. -/
theorem framed_readLenDelimited : Framed readLenDelimited :=
  framed_readVarint.bind fun len => framed_takeSlice _ len.toNat

/-- `read_fixed32` consumes a byte. -/
theorem advances_readFixed32 : Advances readFixed32 :=
  Advances.bind (framed_takeSlice _ 4) (advances_takeSlice _ (by decide))

/-- `read_fixed64` consumes a byte. -/
theorem advances_readFixed64 : Advances readFixed64 :=
  Advances.bind (framed_takeSlice _ 8) (advances_takeSlice _ (by decide))

/-- `read_len_delimited` consumes a byte. -/
theorem advances_readLenDelimited : Advances readLenDelimited :=
  Advances.bind framed_readVarint advances_readVarint

end Reader

/-! ## Varints round-trip -/

/-- The bytes `writeVarint` emits for `value`. -/
def varintBytes (value : UInt64) : Bytes :=
  if value < 0x80 then [value.toUInt8] else varintGroups 10 value

/-- `write_varint` appends the bytes of the varint. -/
theorem writeVarint_eq (buf : Bytes) (value : UInt64) :
    writeVarint buf value = buf ++ varintBytes value := by
  unfold writeVarint varintBytes
  split <;> rfl

/-- A word whose high part is zero is its low group. -/
theorem toNat_shiftRight_eq_zero {v : UInt64} : v >>> 7 = 0 ↔ v.toNat < 128 := by
  rw [← UInt64.toNat_inj, toNat_shiftRight_seven]
  simp only [UInt64.toNat_zero]
  omega

/-- The last group of a varint is the word itself. -/
theorem varintGroups_last {v : UInt64} (slots : Nat) (h : v.toNat < 128) :
    varintGroups (slots + 1) v = [(v &&& 0x7f).toUInt8] := by
  rw [varintGroups, if_pos (toNat_shiftRight_eq_zero.mpr h)]

/-- A group that is not the last has its high bit set. -/
theorem varintGroups_more {v : UInt64} (slots : Nat) (h : ¬ v.toNat < 128) :
    varintGroups (slots + 1) v = ((v &&& 0x7f).toUInt8 ||| 0x80) :: varintGroups slots (v >>> 7) := by
  rw [varintGroups, if_neg (mt toNat_shiftRight_eq_zero.mp h)]

/-- The low group of a word has its high bit clear. -/
theorem lowGroup_and_80 (v : UInt64) : (v &&& 0x7f).toUInt8 &&& 0x80 = 0 := by
  rw [and_80_eq_zero_iff, toNat_lowGroup]
  omega

/-- A group with its high bit set is a continuation. -/
theorem moreGroup_and_80 (v : UInt64) : ¬ ((v &&& 0x7f).toUInt8 ||| 0x80) &&& 0x80 = 0 := by
  rw [and_80_eq_zero_iff, toNat_or_80 (by rw [toNat_lowGroup]; omega)]
  omega

/-- Masking a continuation group gives the low seven bits back. -/
theorem toNat_moreGroup_and_7f (v : UInt64) :
    (((v &&& 0x7f).toUInt8 ||| 0x80) &&& 0x7f).toNat = v.toNat % 128 := by
  rw [toNat_and_7f, toNat_or_80 (by rw [toNat_lowGroup]; omega), toNat_lowGroup]
  omega

/-- The byte read by one round of the loop, put in front of the rest. -/
theorem Reader.readVarintLoop_cons (acc : UInt64) (shift : Nat) (shifts : List Nat) :
    Reader.readVarintLoop acc (shift :: shifts) = Reader.nextByte >>= fun byte =>
      if byte &&& 0x80 = 0 then pure (acc ||| ((byte &&& 0x7f).toUInt64 <<< UInt64.ofNat shift))
      else Reader.readVarintLoop (acc ||| ((byte &&& 0x7f).toUInt64 <<< UInt64.ofNat shift)) shifts :=
  rfl

/-- **The loop reads the groups that are left**: the partial sum `acc` fills the low `s` bits, the
groups of `v` the bits above. -/
theorem Reader.reads_readVarintLoop (n : Nat) :
    ∀ (s : Nat) (acc v : UInt64), s + 7 * n = 63 → acc.toNat < 2 ^ s → v.toNat < 2 ^ (64 - s) →
      Reads (readVarintLoop acc (List.range' s (n + 1) 7)) (varintGroups (n + 1) v)
        (UInt64.ofNat (acc.toNat + 2 ^ s * v.toNat)) := by
  induction n with
  -- the tenth byte: one bit is left
  | zero =>
      intro s acc v hs hacc hv
      obtain rfl : s = 63 := by omega
      have hv' : v.toNat < 2 := hv
      rw [varintGroups_last 0 (by omega)]
      refine Reads.bind_nil (reads_next _ _) ?_
      rw [if_pos (lowGroup_and_80 v)]
      have hval : acc ||| (((v &&& 0x7f).toUInt8 &&& 0x7f).toUInt64 <<< UInt64.ofNat 63)
          = UInt64.ofNat (acc.toNat + 2 ^ 63 * v.toNat) := by
        rw [← UInt64.toNat_inj, or_shiftLeft_eq acc _ (by omega) hacc, toNat_and_7f,
          toNat_lowGroup, UInt64.toNat_ofNat']
        omega
      rw [hval]
      exact Reads.pure _
  | succ n ih =>
      intro s acc v hs hacc hv
      -- the group of seven bits lands above what has been read
      have hsum : ∀ g : UInt8, g.toNat = v.toNat % 128 →
          (acc ||| (g.toUInt64 <<< UInt64.ofNat s)).toNat = acc.toNat + 2 ^ s * (v.toNat % 128) := by
        intro g hg
        have hmod : v.toNat % 128 < 2 ^ (64 - s) :=
          Nat.lt_of_lt_of_le (Nat.mod_lt _ (by omega)) (by
            rw [show 128 = 2 ^ 7 from rfl]
            exact Nat.pow_le_pow_right (by omega) (by omega))
        rw [or_shiftLeft_eq acc g (by omega) hacc, hg, Nat.mod_eq_of_lt hmod]
      rw [List.range'_succ]
      by_cases h : v.toNat < 128
      · rw [varintGroups_last _ h]
        refine Reads.bind_nil (reads_next _ _) ?_
        rw [if_pos (lowGroup_and_80 v)]
        have hval : acc ||| (((v &&& 0x7f).toUInt8 &&& 0x7f).toUInt64 <<< UInt64.ofNat s)
            = UInt64.ofNat (acc.toNat + 2 ^ s * v.toNat) := by
          have hsum' := hsum _ (show (((v &&& 0x7f).toUInt8 &&& 0x7f)).toNat = v.toNat % 128 by
            rw [toNat_and_7f, toNat_lowGroup]; omega)
          rw [Nat.mod_eq_of_lt h] at hsum'
          rw [← hsum', UInt64.ofNat_toNat]
        rw [hval]
        exact Reads.pure _
      · rw [varintGroups_more _ h, ← List.singleton_append]
        refine (reads_next _ _).bind ?_
        rw [if_neg (moreGroup_and_80 v)]
        have hsum' := hsum _ (toNat_moreGroup_and_7f v)
        have hpow : (2 : Nat) ^ (s + 7) = 2 ^ s * 128 := by rw [Nat.pow_add]
        have hpow' : (2 : Nat) ^ (64 - s) = 128 * 2 ^ (64 - (s + 7)) := by
          rw [show 128 = 2 ^ 7 from rfl, ← Nat.pow_add]
          congr 1
          omega
        have hread := ih (s + 7)
          (acc ||| ((((v &&& 0x7f).toUInt8 ||| 0x80) &&& 0x7f).toUInt64 <<< UInt64.ofNat s))
          (v >>> 7) (by omega)
          (by
            rw [hsum', hpow]
            have := Nat.mul_le_mul_left (2 ^ s) (show v.toNat % 128 ≤ 127 by omega)
            omega)
          (by
            rw [toNat_shiftRight_seven]
            rw [hpow'] at hv
            exact Nat.div_lt_of_lt_mul hv)
        have hval : (acc.toNat + 2 ^ s * (v.toNat % 128)) + 2 ^ (s + 7) * (v.toNat / 128)
            = acc.toNat + 2 ^ s * v.toNat := by
          rw [hpow, Nat.mul_assoc, Nat.add_assoc, ← Nat.mul_add, Nat.mod_add_div]
        rwa [hsum', toNat_shiftRight_seven, hval] at hread

/-- **`read_varint` undoes `write_varint`**, whatever surrounds the varint. -/
theorem Reader.reads_varint (value : UInt64) :
    Reads readVarint (varintBytes value) value := by
  unfold varintBytes
  have h80 : (0x80 : UInt64).toNat = 128 := rfl
  by_cases h : value < 0x80
  · rw [if_pos h]
    rw [UInt64.lt_iff_toNat_lt, h80] at h
    have hbyte : value.toUInt8.toNat = value.toNat := by
      rw [UInt64.toNat_toUInt8]
      omega
    refine Reads.bind_nil (reads_next _ _) ?_
    rw [if_pos ((and_80_eq_zero_iff _).mpr (by omega))]
    have hval : value.toUInt8.toUInt64 = value := by
      rw [← UInt64.toNat_inj, UInt8.toNat_toUInt64, hbyte]
    rw [hval]
    exact Reads.pure _
  · rw [if_neg h]
    rw [UInt64.lt_iff_toNat_lt, h80] at h
    rw [varintGroups_more _ h, ← List.singleton_append]
    refine (reads_next _ _).bind ?_
    rw [if_neg (moreGroup_and_80 value)]
    have hlow : ((((value &&& 0x7f).toUInt8 ||| 0x80) &&& 0x7f).toUInt64).toNat
        = value.toNat % 128 := by
      rw [UInt8.toNat_toUInt64, toNat_moreGroup_and_7f]
    have hread := reads_readVarintLoop 8 7
      (((value &&& 0x7f).toUInt8 ||| 0x80) &&& 0x7f).toUInt64 (value >>> 7) (by omega)
      (by rw [hlow]; omega)
      (by rw [toNat_shiftRight_seven]; have := value.toNat_lt; omega)
    have hval : value.toNat % 128 + 2 ^ 7 * (value.toNat / 128) = value.toNat := by
      omega
    rwa [hlow, toNat_shiftRight_seven, hval, UInt64.ofNat_toNat] at hread

/-! ## Tags, fixed-width numbers and chunks -/

/-- `from_u64` undoes the cast of a wire type to its code. -/
@[simp] theorem WireType.fromU64_toU64 (wire : WireType) : fromU64 wire.toU64 = some wire := by
  cases wire <;> rfl

/-- A legal field number: `1 ..= 2^29 - 1`. -/
def ValidNumber (number : UInt32) : Prop := 0 < number.toNat ∧ number.toNat < 2 ^ 29

instance (number : UInt32) : Decidable (ValidNumber number) :=
  inferInstanceAs (Decidable (_ ∧ _))

/-- The bytes `writeTag` emits. -/
def tagBytes (field : UInt32) (wire : WireType) : Bytes :=
  varintBytes ((field.toUInt64 <<< 3) ||| wire.toU64)

/-- `write_tag` appends the bytes of the tag. -/
theorem writeTag_eq (buf : Bytes) (field : UInt32) (wire : WireType) :
    writeTag buf field wire = buf ++ tagBytes field wire := writeVarint_eq buf _

/-- The wire code of a tag fits its three low bits. -/
theorem WireType.toNat_toU64_lt (wire : WireType) : wire.toU64.toNat < 2 ^ 3 := by
  cases wire <;> decide

/-- The number of a tag: field number above, wire code in the three low bits. -/
theorem toNat_tag {field : UInt32} (h : ValidNumber field) (wire : WireType) :
    ((field.toUInt64 <<< 3) ||| wire.toU64).toNat = 8 * field.toNat + wire.toU64.toNat := by
  have hlt := h.2
  have hshift : (field.toUInt64 <<< 3).toNat = 2 ^ 3 * field.toNat := by
    rw [UInt64.toNat_shiftLeft, UInt32.toNat_toUInt64, Nat.shiftLeft_eq,
      show (3 : UInt64).toNat % 64 = 3 from rfl]
    omega
  rw [UInt64.toNat_or, hshift, ← Nat.two_pow_add_eq_or_of_lt wire.toNat_toU64_lt]

/-- **`read_tag` undoes `write_tag`** on legal field numbers. -/
theorem Reader.reads_tag {field : UInt32} (h : ValidNumber field) (wire : WireType) :
    Reads readTag (tagBytes field wire) (field, wire) := by
  have htag := toNat_tag h wire
  have hcode := wire.toNat_toU64_lt
  have hnum := h.1
  have hlt := h.2
  refine Reads.bind_nil (reads_varint _) ?_
  generalize (field.toUInt64 <<< 3) ||| wire.toU64 = key at htag
  have hwire : key &&& 0x7 = wire.toU64 := by
    rw [← UInt64.toNat_inj, UInt64.toNat_and, show (0x7 : UInt64).toNat = 2 ^ 3 - 1 from rfl,
      Nat.and_two_pow_sub_one_eq_mod, htag]
    omega
  have hfield : (key >>> 3).toNat = field.toNat := by
    rw [UInt64.toNat_shiftRight, show (3 : UInt64).toNat % 64 = 3 from rfl,
      Nat.shiftRight_eq_div_pow, htag]
    omega
  have hback : (key >>> 3).toUInt32 = field := by
    rw [← UInt32.toNat_inj, UInt64.toNat_toUInt32, hfield]
    omega
  have hmax : maxFieldNumber.toNat = 2 ^ 29 - 1 := rfl
  have hok : ¬ (key >>> 3 = 0 ∨ key >>> 3 > maxFieldNumber) := by
    rw [← UInt64.toNat_inj, gt_iff_lt, UInt64.lt_iff_toNat_lt, hfield, hmax]
    simp only [UInt64.toNat_zero]
    omega
  simp only [hwire, WireType.fromU64_toU64, if_neg hok, hback]
  exact Reads.pure _

/-- A tag read from the wire has a legal field number. -/
theorem Reader.validNumber_of_readTag {r r' : Reader} {field : UInt32} {wire : WireType}
    (h : readTag r = .ok ((field, wire), r')) : ValidNumber field := by
  obtain ⟨⟨key, r₁⟩, -, h⟩ := bind_eq_ok.mp h
  cases hw : WireType.fromU64 (key &&& 0x7) with
  | none => simp only [hw] at h; cases h
  | some w =>
      simp only [hw] at h
      by_cases hbad : key >>> 3 = 0 ∨ key >>> 3 > maxFieldNumber
      · rw [if_pos hbad] at h
        cases h
      · rw [if_neg hbad] at h
        cases h
        have hmax : maxFieldNumber.toNat = 2 ^ 29 - 1 := rfl
        rw [← UInt64.toNat_inj, gt_iff_lt, UInt64.lt_iff_toNat_lt, hmax] at hbad
        simp only [UInt64.toNat_zero] at hbad
        unfold ValidNumber
        rw [UInt64.toNat_toUInt32]
        omega

/-- `read_fixed32` undoes `write_fixed32`. -/
theorem Reader.reads_fixed32 (value : UInt32) :
    Reads readFixed32 (toLeBytes 4 value.toNat) value := by
  have hslice := reads_takeSlice WireError.unexpectedEof (toLeBytes 4 value.toNat)
  rw [length_toLeBytes] at hslice
  refine Reads.bind_nil hslice ?_
  have hlt : value.toNat < 256 ^ 4 := value.toNat_lt
  rw [fromLeBytes_toLeBytes, Nat.mod_eq_of_lt hlt, UInt32.ofNat_toNat]
  exact Reads.pure _

/-- `read_fixed64` undoes `write_fixed64`. -/
theorem Reader.reads_fixed64 (value : UInt64) :
    Reads readFixed64 (toLeBytes 8 value.toNat) value := by
  have hslice := reads_takeSlice WireError.unexpectedEof (toLeBytes 8 value.toNat)
  rw [length_toLeBytes] at hslice
  refine Reads.bind_nil hslice ?_
  have hlt : value.toNat < 256 ^ 8 := value.toNat_lt
  rw [fromLeBytes_toLeBytes, Nat.mod_eq_of_lt hlt, UInt64.ofNat_toNat]
  exact Reads.pure _

/-- The bytes `writeLenDelimited` emits. -/
def lenBytes (data : Bytes) : Bytes := varintBytes (UInt64.ofNat data.length) ++ data

/-- `write_len_delimited` appends the length and the chunk. -/
theorem writeLenDelimited_eq (buf data : Bytes) :
    writeLenDelimited buf data = buf ++ lenBytes data := by
  rw [writeLenDelimited, writeVarint_eq, lenBytes, List.append_assoc]

/-- **`read_len_delimited` undoes `write_len_delimited`** on chunks whose length fits a `u64`. -/
theorem Reader.reads_lenDelimited {data : Bytes} (h : data.length < 2 ^ 64) :
    Reads readLenDelimited (lenBytes data) data := by
  refine (reads_varint _).bind ?_
  rw [UInt64.toNat_ofNat', Nat.mod_eq_of_lt h]
  exact reads_takeSlice _ data

/-- The `checked_add` of `read_len_delimited` never fails where the bounds check would not: on a
buffer that fits a `usize`, the reader that makes both checks is `readLenDelimited`. -/
theorem Reader.readLenDelimited_checked {pre s : Bytes} (h : (pre ++ s).length < 2 ^ 64) :
    readLenDelimited (between pre s) = readVarint (between pre s) >>= fun r =>
      if 2 ^ 64 ≤ r.2.pos + r.1.toNat then .error .invalidLength
      else Cursor.takeSlice .invalidLength r.1.toNat r.2 := by
  show (readVarint (between pre s) >>= fun r => Cursor.takeSlice .invalidLength r.1.toNat r.2) = _
  cases hread : readVarint (between pre s) with
  | error e => rfl
  | ok r =>
      obtain ⟨len, r⟩ := r
      obtain ⟨chunk, post, rfl, rfl, -⟩ := framed_readVarint pre s len r hread
      rw [ok_bind, ok_bind]
      by_cases hover : 2 ^ 64 ≤ (between (pre ++ chunk) post).pos + len.toNat
      · rw [if_pos hover, takeSlice, between_append_left, if_neg]
        show ¬ (between (pre ++ chunk) post).pos + len.toNat ≤ _
        omega
      · rw [if_neg hover]

/-! ## Length prefixes -/

/-- Setting the lowest bit does not change the number of used bits. -/
theorem log2_or_one (n : Nat) : (n ||| 1).log2 = n.log2 := by
  by_cases h : n = 0
  · subst h
    rfl
  · have hpos : n ||| 1 ≠ 0 := by
      have := @Nat.left_le_or n 1
      omega
    have hlog := (Nat.log2_eq_iff h).mp rfl
    rw [Nat.log2_eq_iff hpos]
    refine ⟨le_trans hlog.1 Nat.left_le_or, Nat.or_lt_two_pow hlog.2 ?_⟩
    exact Nat.one_lt_two_pow (by omega)

/-- Dropping seven bits takes seven off the number of used bits. -/
theorem log2_div_128 {n : Nat} (h : 128 ≤ n) : n.log2 = (n / 128).log2 + 7 := by
  have hdiv : n / 128 ≠ 0 := by omega
  have hlog := (Nat.log2_eq_iff hdiv).mp rfl
  rw [Nat.log2_eq_iff (by omega), Nat.pow_add, show (n / 128).log2 + 7 + 1 = (n / 128).log2 + 1 + 7
    by omega, Nat.pow_add]
  generalize 2 ^ (n / 128).log2 = a at hlog
  generalize 2 ^ ((n / 128).log2 + 1) = b at hlog
  omega

/-- The number of groups is the number of used bits over seven, rounded up. -/
theorem length_varintGroups (n : Nat) :
    ∀ v : UInt64, v.toNat < 2 ^ (7 * (n + 1)) →
      (varintGroups (n + 1) v).length = (v.toNat.log2 + 7) / 7 := by
  induction n with
  | zero =>
      intro v hv
      have hv' : v.toNat < 128 := hv
      have hlog : v.toNat.log2 < 7 := by
        by_cases h : v.toNat = 0
        · rw [h]
          decide
        · exact (Nat.log2_lt h).mpr hv'
      rw [varintGroups_last 0 hv', List.length_singleton]
      omega
  | succ n ih =>
      intro v hv
      by_cases h : v.toNat < 128
      · have hlog : v.toNat.log2 < 7 := by
          by_cases h0 : v.toNat = 0
          · rw [h0]
            decide
          · exact (Nat.log2_lt h0).mpr h
        rw [varintGroups_last _ h, List.length_singleton]
        omega
      · have hrest : (v >>> 7).toNat < 2 ^ (7 * (n + 1)) := by
          rw [toNat_shiftRight_seven]
          rw [show 7 * (n + 1 + 1) = 7 + 7 * (n + 1) by omega, Nat.pow_add] at hv
          exact Nat.div_lt_of_lt_mul hv
        rw [varintGroups_more _ h, List.length_cons, ih _ hrest, toNat_shiftRight_seven,
          log2_div_128 (by omega : 128 ≤ v.toNat)]
        omega

/-- **`varint_len` is the number of bytes `write_varint` emits.** -/
theorem length_varintBytes (value : UInt64) : (varintBytes value).length = varintLen value := by
  have hor : (value ||| 1).toNat = value.toNat ||| 1 := UInt64.toNat_or value 1
  have h80 : (0x80 : UInt64).toNat = 128 := rfl
  unfold varintBytes varintLen
  rw [hor, log2_or_one, show value.toNat.log2 + 1 + 6 = value.toNat.log2 + 7 from rfl]
  by_cases h : value < 0x80
  · rw [if_pos h, List.length_singleton]
    rw [UInt64.lt_iff_toNat_lt, h80] at h
    by_cases h0 : value.toNat = 0
    · rw [h0]
      decide
    · have := (Nat.log2_lt h0).mpr (show value.toNat < 2 ^ 7 from h)
      omega
  · rw [if_neg h]
    exact length_varintGroups 9 value (by have := value.toNat_lt; omega)

/-- The one-byte fast path agrees with the loop. -/
theorem varintBytes_eq (value : UInt64) : varintBytes value = varintGroups 10 value := by
  unfold varintBytes
  by_cases h : value < 0x80
  · rw [if_pos h]
    rw [UInt64.lt_iff_toNat_lt, show (0x80 : UInt64).toNat = 128 from rfl] at h
    have hbyte : value.toUInt8 = (value &&& 0x7f).toUInt8 := by
      rw [← UInt8.toNat_inj, toNat_lowGroup, UInt64.toNat_toUInt8]
      omega
    rw [varintGroups_last _ h, hbyte]
  · rw [if_neg h]

/-- A varint has at least one byte. -/
theorem varintLen_pos (value : UInt64) : 0 < varintLen value := by
  unfold varintLen
  omega

/-- Overwriting the slot right after `pre`. -/
theorem set_append_cons {α : Type} (pre post : List α) (a b : α) :
    (pre ++ a :: post).set pre.length b = pre ++ b :: post := by
  rw [List.set_append_right _ _ (Nat.le_refl _), Nat.sub_self, List.set_cons_zero]

/-- The patching loop stores the groups of the varint in as many slots. -/
theorem patchVarint_eq (n : Nat) :
    ∀ (v : UInt64) (pre slots post : Bytes), v.toNat < 2 ^ (7 * (n + 1)) →
      slots.length = (varintGroups (n + 1) v).length →
      patchVarint (n + 1) (pre ++ slots ++ post) pre.length v
        = pre ++ varintGroups (n + 1) v ++ post := by
  have h80 : (0x80 : UInt64).toNat = 128 := rfl
  have hlast : ∀ v : UInt64, v.toNat < 128 → v.toUInt8 = (v &&& 0x7f).toUInt8 := by
    intro v hv
    rw [← UInt8.toNat_inj, toNat_lowGroup, UInt64.toNat_toUInt8]
    omega
  have hmore : ∀ v : UInt64, v.toUInt8 &&& 0x7f = (v &&& 0x7f).toUInt8 := by
    intro v
    rw [← UInt8.toNat_inj, toNat_lowGroup, toNat_and_7f, UInt64.toNat_toUInt8]
    omega
  induction n with
  | zero =>
      intro v pre slots post hv hlen
      have hv' : v.toNat < 128 := hv
      rw [varintGroups_last 0 hv', List.length_singleton] at hlen
      obtain ⟨b, rfl⟩ := List.length_eq_one_iff.mp hlen
      rw [patchVarint, if_neg (by rw [ge_iff_le, UInt64.le_iff_toNat_le, h80]; omega),
        List.append_assoc, List.singleton_append, set_append_cons, varintGroups_last 0 hv',
        List.append_assoc, List.singleton_append, hlast v hv']
  | succ n ih =>
      intro v pre slots post hv hlen
      by_cases h : v.toNat < 128
      · rw [varintGroups_last _ h, List.length_singleton] at hlen
        obtain ⟨b, rfl⟩ := List.length_eq_one_iff.mp hlen
        rw [patchVarint, if_neg (by rw [ge_iff_le, UInt64.le_iff_toNat_le, h80]; omega),
          List.append_assoc, List.singleton_append, set_append_cons, varintGroups_last _ h,
          List.append_assoc, List.singleton_append, hlast v h]
      · have hrest : (v >>> 7).toNat < 2 ^ (7 * (n + 1)) := by
          rw [toNat_shiftRight_seven]
          rw [show 7 * (n + 1 + 1) = 7 + 7 * (n + 1) by omega, Nat.pow_add] at hv
          exact Nat.div_lt_of_lt_mul hv
        rw [varintGroups_more _ h, List.length_cons] at hlen
        obtain ⟨b, slots, rfl⟩ := List.exists_cons_of_length_eq_add_one hlen
        rw [List.length_cons, Nat.add_right_cancel_iff] at hlen
        have hih := ih (v >>> 7) (pre ++ [(v.toUInt8 &&& 0x7f) ||| 0x80]) slots post hrest hlen
        rw [List.length_append, List.length_singleton] at hih
        rw [patchVarint, if_pos (by rw [ge_iff_le, UInt64.le_iff_toNat_le, h80]; omega),
          List.append_assoc, List.cons_append, set_append_cons, varintGroups_more _ h]
        simpa only [List.append_assoc, List.cons_append, List.nil_append, hmore v] using hih

/-- The payload moved right by `extra` slots. -/
theorem copyWithin_shift (pre payload extra : Bytes) (b : UInt8) :
    copyWithin (pre ++ b :: payload ++ extra) (pre.length + 1) payload.length
        (pre.length + 1 + extra.length)
      = (pre ++ b :: payload ++ extra).take (pre.length + 1 + extra.length) ++ payload := by
  unfold copyWithin
  have hdrop : (pre ++ b :: payload ++ extra).drop (pre.length + 1) = payload ++ extra := by
    rw [show pre ++ b :: payload ++ extra = (pre ++ [b]) ++ (payload ++ extra) by simp,
      show pre.length + 1 = (pre ++ [b]).length by simp, List.drop_left]
  have hend : (pre ++ b :: payload ++ extra).drop
      (pre.length + 1 + extra.length + payload.length) = [] := by
    rw [List.drop_eq_nil_iff]
    simp only [List.length_append, List.length_cons]
    omega
  rw [hdrop, List.take_left, hend, List.append_nil]

/-- **Patching the reserved slot writes the length in front of the payload**, whatever its size. -/
theorem finishLenPrefix_eq (pre payload : Bytes) :
    finishLenPrefix (pre ++ [0] ++ payload) pre.length
      = pre ++ varintBytes (UInt64.ofNat payload.length) ++ payload := by
  have hlen : (pre ++ [0] ++ payload).length - pre.length - 1 = payload.length := by
    simp only [List.length_append, List.length_singleton]
    omega
  unfold finishLenPrefix
  rw [hlen, List.append_assoc, List.singleton_append]
  by_cases h : payload.length < 0x80
  · have hsmall : UInt64.ofNat payload.length < 0x80 := by
      rw [UInt64.lt_iff_toNat_lt, UInt64.toNat_ofNat']
      have : (0x80 : UInt64).toNat = 128 := rfl
      omega
    have hbyte : UInt8.ofNat payload.length = (UInt64.ofNat payload.length).toUInt8 := by
      rw [← UInt8.toNat_inj, UInt64.toNat_toUInt8, UInt64.toNat_ofNat', UInt8.toNat_ofNat']
      omega
    rw [if_pos h, set_append_cons, varintBytes, if_pos hsmall, List.append_assoc,
      List.singleton_append, hbyte]
  · rw [if_neg h]
    generalize hv : UInt64.ofNat payload.length = v
    have hpos := varintLen_pos v
    have hshift := copyWithin_shift pre payload (List.replicate (varintLen v - 1) 0) 0
    rw [List.length_replicate] at hshift
    -- the slots that take the varint: the reserved one and the ones made by the shift
    have hslots : (pre ++ 0 :: payload ++ List.replicate (varintLen v - 1) 0).take
        (pre.length + 1 + (varintLen v - 1))
        = pre ++ (0 :: payload ++ List.replicate (varintLen v - 1) 0).take (varintLen v) := by
      rw [List.append_assoc, show pre.length + 1 + (varintLen v - 1) = pre.length + varintLen v
        by omega, List.take_length_add_append]
    have hcount : ((0 :: payload ++ List.replicate (varintLen v - 1) 0).take
        (varintLen v)).length = (varintGroups 10 v).length := by
      rw [← varintBytes_eq, length_varintBytes, List.length_take, List.length_append,
        List.length_cons, List.length_replicate]
      omega
    have hlt : v.toNat < 2 ^ (7 * (9 + 1)) := by
      have := v.toNat_lt
      omega
    show patchVarint 10 (copyWithin (pre ++ 0 :: payload ++ List.replicate (varintLen v - 1) 0)
      (pre.length + 1) payload.length (pre.length + 1 + (varintLen v - 1))) pre.length v = _
    rw [hshift, hslots, patchVarint_eq 9 v pre _ payload hlt hcount, varintBytes_eq]

end FastProto
