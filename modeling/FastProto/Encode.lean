import FastProto.Message
import FastProto.WellKnown

/-! # The encoder (`src/encode/mod.rs`)

The encoder walks a descriptor, reads each field off the instance and appends to the output buffer.
Nested messages, packed lists and map entries are written in place: a length slot is reserved and
patched afterwards. Objects are handles of an arbitrary type `V`, which need not be finite trees. -/

namespace FastProto

open Lib

/-- What the codec can ask of Python objects with handles `V`. -/
structure Runtime (V : Type) where
  /-- One layer of an object. -/
  view : V → PyShape V
  /-- Iteration over an object that is neither a `list` nor a `tuple`. -/
  iter : V → PyResult (List V)
  /-- Reading an attribute of an instance of a class, with these attributes stored. -/
  getattribute : ClassId → List (String × V) → String → PyResult V
  /-- `__fastproto__` of a class. -/
  typeDescriptor : ClassId → Option DescId
  /-- The compiled descriptors with their link state. -/
  descriptor : DescId → Descriptor

variable {V : Type}

/-- `getattr(value, name)`. -/
def Runtime.getattr (rt : Runtime V) (value : V) (name : String) : PyResult V :=
  match rt.view value with
  | .inst cls attrs => rt.getattribute cls attrs name
  | _ => .error (.attributeError name)

/-- The elements `for_each_item` runs over. -/
def Runtime.items (rt : Runtime V) (value : V) : PyResult (List V) :=
  match rt.view value with
  | .list items => .ok items
  | .tuple items => .ok items
  | _ => rt.iter value

/-! ## Scalars -/

/-- Write one tagged scalar field; with `skipDefault`, a value equal to its type default writes
nothing. Floats compare by bits. -/
def encodeScalarField (buf : Bytes) (number : UInt32) (scalar : ScalarType) (value : PyShape V)
    (skipDefault : Bool) : PyResult Bytes :=
  let varintArm (isZero : Bool) (raw : UInt64) : Bytes :=
    if skipDefault && isZero then buf else writeVarint (writeTag buf number .varint) raw
  let fixed32Arm (bits : UInt32) : Bytes :=
    if skipDefault && decide (bits = 0) then buf else writeFixed32 (writeTag buf number .i32) bits
  let fixed64Arm (bits : UInt64) : Bytes :=
    if skipDefault && decide (bits = 0) then buf else writeFixed64 (writeTag buf number .i64) bits
  let lenArm (data : Bytes) : Bytes :=
    if skipDefault && data.isEmpty then buf else writeLenDelimited (writeTag buf number .len) data
  match scalar with
  | .int32 => do
      let v ← value.extractI32
      .ok (varintArm (v = 0) v.toInt64.toUInt64)
  | .int64 => do
      let v ← value.extractI64
      .ok (varintArm (v = 0) v.toUInt64)
  | .uint32 => do
      let v ← value.extractU32
      .ok (varintArm (v = 0) v.toUInt64)
  | .uint64 => do
      let v ← value.extractU64
      .ok (varintArm (v = 0) v)
  | .sint32 => do
      let v ← value.extractI32
      .ok (varintArm (v = 0) (zigzagEncode32 v).toUInt64)
  | .sint64 => do
      let v ← value.extractI64
      .ok (varintArm (v = 0) (zigzagEncode64 v))
  | .bool => do
      let v ← value.extractBool
      .ok (if v || !skipDefault then
        writeVarint (writeTag buf number .varint) (if v then 1 else 0) else buf)
  | .fixed32 => do
      let bits ← value.extractU32
      .ok (fixed32Arm bits)
  | .sfixed32 => do
      let v ← value.extractI32
      .ok (fixed32Arm v.toUInt32)
  | .float => do
      let bits ← value.extractF32
      .ok (fixed32Arm bits)
  | .fixed64 => do
      let bits ← value.extractU64
      .ok (fixed64Arm bits)
  | .sfixed64 => do
      let v ← value.extractI64
      .ok (fixed64Arm v.toUInt64)
  | .double => do
      let bits ← value.extractF64
      .ok (fixed64Arm bits)
  | .string => do
      let s ← value.strBytes
      .ok (lenArm s)
  | .bytes => do
      let b ← value.byteSlice
      .ok (lenArm b)

/-- Write the tag-less payload of one scalar value (packed/map elements). -/
def encodeScalar (buf : Bytes) (scalar : ScalarType) (value : PyShape V) : PyResult Bytes :=
  match scalar with
  | .int32 => do
      let v ← value.extractI32
      .ok (writeVarint buf v.toInt64.toUInt64)
  | .int64 => do
      let v ← value.extractI64
      .ok (writeVarint buf v.toUInt64)
  | .uint32 => do
      let v ← value.extractU32
      .ok (writeVarint buf v.toUInt64)
  | .uint64 => do
      let v ← value.extractU64
      .ok (writeVarint buf v)
  | .sint32 => do
      let v ← value.extractI32
      .ok (writeVarint buf (zigzagEncode32 v).toUInt64)
  | .sint64 => do
      let v ← value.extractI64
      .ok (writeVarint buf (zigzagEncode64 v))
  | .bool => do
      let v ← value.extractBool
      .ok (writeVarint buf (if v then 1 else 0))
  | .fixed32 => do
      let v ← value.extractU32
      .ok (writeFixed32 buf v)
  | .sfixed32 => do
      let v ← value.extractI32
      .ok (writeFixed32 buf v.toUInt32)
  | .float => do
      let bits ← value.extractF32
      .ok (writeFixed32 buf bits)
  | .fixed64 => do
      let v ← value.extractU64
      .ok (writeFixed64 buf v)
  | .sfixed64 => do
      let v ← value.extractI64
      .ok (writeFixed64 buf v.toUInt64)
  | .double => do
      let bits ← value.extractF64
      .ok (writeFixed64 buf bits)
  | .string => do
      let s ← value.strBytes
      .ok (writeLenDelimited buf s)
  | .bytes => do
      let b ← value.byteSlice
      .ok (writeLenDelimited buf b)

/-- Write an enum value's payload: the integer, sign-extended. -/
def encodeEnum (buf : Bytes) (value : PyShape V) : PyResult Bytes := do
  let v ← value.extractI32
  .ok (writeVarint buf v.toInt64.toUInt64)

/-- Write a Timestamp/Duration submessage as one tagged length-delimited field. -/
def writePartsField (buf : Bytes) (number : UInt32) (secs : Int64) (nanos : Int32) : Bytes :=
  let buf := writeTag buf number .len
  let (buf, lenPos) := beginLenPrefix buf
  finishLenPrefix (encodeParts buf secs nanos) lenPos

/-! ## Fields

`nested` encodes the payload of a nested message one level down: the recursive call of
`encode_nested`. -/

/-- How a nested message is encoded: the value, the linked reference of its field, the buffer. -/
abbrev NestedEncoder (V : Type) := V → Option LinkedRef → Bytes → PyResult Bytes

section Fields

variable (rt : Runtime V) (nested : NestedEncoder V)

/-- Write a nested message as one tagged length-delimited field. -/
def writeNestedField (buf : Bytes) (number : UInt32) (value : V) (linked : Option LinkedRef) :
    PyResult Bytes := do
  let buf := writeTag buf number .len
  let (buf, lenPos) := beginLenPrefix buf
  let buf ← nested value linked buf
  .ok (finishLenPrefix buf lenPos)

/-- Write a single tagged value (scalar, enum, or message). -/
def encodeSingle (buf : Bytes) (number : UInt32) (kind : FieldKind) (value : V)
    (linked : Option LinkedRef) : PyResult Bytes :=
  match kind with
  | .scalar scalar => encodeScalarField buf number scalar (rt.view value) false
  | .enum => encodeEnum (writeTag buf number .varint) (rt.view value)
  | .message => writeNestedField nested buf number value linked
  | .timestamp => do
      let (secs, nanos) ← datetimeToParts (rt.view value)
      .ok (writePartsField buf number secs nanos)
  | .duration => do
      let (secs, nanos) ← timedeltaToParts (rt.view value)
      .ok (writePartsField buf number secs nanos)
  | .map _ _ => .error (.panicked "maps handled separately")

/-- Write a packed field in place; the tag is rolled back if the sequence turns out to be empty. -/
def encodePacked (buf : Bytes) (number : UInt32) (items : List V)
    (element : Bytes → PyShape V → PyResult Bytes) : PyResult Bytes := do
  let tagStart := buf.length
  let buf := writeTag buf number .len
  let (buf, lenPos) := beginLenPrefix buf
  let buf ← items.foldlM (fun buf item => element buf (rt.view item)) buf
  if buf.length = lenPos + 1 then .ok (buf.take tagStart) else .ok (finishLenPrefix buf lenPos)

/-- Encode a repeated field (packed for numeric scalars/enums, otherwise one tagged entry per
element). -/
def encodeRepeated (buf : Bytes) (number : UInt32) (kind : FieldKind) (value : V)
    (linked : Option LinkedRef) : PyResult Bytes :=
  if (rt.view value).isStrOrBytes then
    .error (.typeError "repeated field must be a list of elements, not a str/bytes")
  else
    match kind with
    | .scalar scalar =>
        if scalar.isPackable then do
          let items ← rt.items value
          encodePacked rt buf number items fun buf item => encodeScalar buf scalar item
        else do
          let items ← rt.items value
          items.foldlM
            (fun buf item => encodeScalar (writeTag buf number scalar.wireType) scalar (rt.view item))
            buf
    | .enum => do
        let items ← rt.items value
        encodePacked rt buf number items encodeEnum
    | .message => do
        let items ← rt.items value
        items.foldlM (fun buf item => writeNestedField nested buf number item linked) buf
    | .timestamp => do
        let items ← rt.items value
        items.foldlM
          (fun buf item => do
            let (secs, nanos) ← datetimeToParts (rt.view item)
            .ok (writePartsField buf number secs nanos))
          buf
    | .duration => do
        let items ← rt.items value
        items.foldlM
          (fun buf item => do
            let (secs, nanos) ← timedeltaToParts (rt.view item)
            .ok (writePartsField buf number secs nanos))
          buf
    | .map _ _ => .error (.panicked "maps handled separately")

/-- Write the value of a map entry (field 2 of the entry message). -/
def encodeMapValue (buf : Bytes) (valueKind : MapValue) (value : V) (linked : Option LinkedRef) :
    PyResult Bytes :=
  match valueKind with
  | .scalar scalar => encodeScalar (writeTag buf 2 scalar.wireType) scalar (rt.view value)
  | .enum => encodeEnum (writeTag buf 2 .varint) (rt.view value)
  | .message => writeNestedField nested buf 2 value linked
  | .timestamp => do
      let (secs, nanos) ← datetimeToParts (rt.view value)
      .ok (writePartsField buf 2 secs nanos)
  | .duration => do
      let (secs, nanos) ← timedeltaToParts (rt.view value)
      .ok (writePartsField buf 2 secs nanos)

/-- Encode a `map<K, V>` field: one length-delimited entry message per pair. -/
def encodeMap (buf : Bytes) (number : UInt32) (key : ScalarType) (valueKind : MapValue) (value : V)
    (linked : Option LinkedRef) : PyResult Bytes :=
  match rt.view value with
  | .dict items =>
      items.foldlM
        (fun buf (k, v) => do
          let buf := writeTag buf number .len
          let (buf, entryPos) := beginLenPrefix buf
          let buf ← encodeScalar (writeTag buf 1 key.wireType) key (rt.view k)
          let buf ← encodeMapValue rt nested buf valueKind v linked
          .ok (finishLenPrefix buf entryPos))
        buf
  | _ => .error (.typeError "map field must be a dict")

/-! ## Messages -/

/-- Count one more set member of a field's oneof group, if it is in one, in a saturating `u8`. -/
def countMember (counts : List Nat) (oneofIndex : Option UInt32) : PyResult (List Nat) :=
  match oneofIndex with
  | none => .ok counts
  | some group =>
      match counts[group.toNat]? with
      | some count => .ok (counts.set group.toNat (min 255 (count + 1)))
      | none => .error (.panicked "index out of bounds")

/-- One round of the field loop of `encode_message`, on the buffer and the oneof counters. -/
def encodeField (desc : Descriptor) (instance_ : V) (st : Bytes × List Nat)
    (field : FieldDescriptor) : PyResult (Bytes × List Nat) := do
  let (buf, counts) := st
  let value ← rt.getattr instance_ field.name
  let linked := desc.ref field.number
  match field.kind with
  | .map key valKind => do
      let buf ← encodeMap rt nested buf field.number key valKind value linked
      .ok (buf, counts)
  | kind =>
      match field.label with
      | .repeated => do
          let buf ← encodeRepeated rt nested buf field.number kind value linked
          .ok (buf, counts)
      | .optional =>
          if (rt.view value).isNone then .ok (buf, counts)
          else do
            let counts ← countMember counts field.oneofIndex
            let buf ← encodeSingle rt nested buf field.number kind value linked
            .ok (buf, counts)
      | .single =>
          match kind with
          | .scalar scalar => do
              let buf ← encodeScalarField buf field.number scalar (rt.view value) true
              .ok (buf, counts)
          | .enum => do
              let v ← (rt.view value).extractI32
              .ok (if v ≠ 0 then
                  writeVarint (writeTag buf field.number .varint) v.toInt64.toUInt64
                else buf, counts)
          | _ => do
              let buf ← encodeSingle rt nested buf field.number kind value linked
              .ok (buf, counts)

/-- At most one member of each oneof group may be set. -/
def checkOneofs (oneofs : List String) (counts : List Nat) : PyResult Unit :=
  match counts.zipIdx.find? fun (count, _) => decide (1 < count) with
  | none => .ok ()
  | some (count, group) =>
      match oneofs[group]? with
      | some name =>
          .error (.valueError ("at most one member of oneof '" ++ name ++ "' may be set, got "
            ++ toString count))
      | none => .error (.panicked "index out of bounds")

/-- Re-emit the unknown fields captured by the decoder, if the slot is set. -/
def encodeUnknown (instance_ : V) (buf : Bytes) : PyResult Bytes :=
  match rt.getattr instance_ unknownSlot with
  | .ok raw => do
      let bytes ← (rt.view raw).byteSlice
      .ok (buf ++ bytes)
  | .error _ => .ok buf

end Fields

/-- The descriptor a nested value is encoded by: the one cached at link time when the value is
exactly of the linked class, otherwise the one of the value's own type. -/
def nestedDescriptor (rt : Runtime V) (value : V) (linked : Option LinkedRef) : PyResult DescId :=
  match rt.view value with
  | .inst cls _ =>
      match linked.bind fun l => if l.cls = cls then l.desc else none with
      | some desc => .ok desc
      | none =>
          match rt.typeDescriptor cls with
          | some desc => .ok desc
          | none => .error (.attributeError "__fastproto__")
  | _ => .error (.attributeError "__fastproto__")

/-- Encode `instance_` according to a descriptor, appending to `buf`. `levels` counts the nesting
levels left: `MAX_DEPTH + 1 - depth`. -/
def encodeMessage (rt : Runtime V) : Nat → V → DescId → Bytes → PyResult Bytes
  | 0, _, _, _ => .error (.valueError ("message nesting exceeded " ++ toString maxDepth ++ " levels"))
  | levels + 1, instance_, descId, buf => do
      let desc := rt.descriptor descId
      let nested : NestedEncoder V := fun value linked buf => do
        let nestedDesc ← nestedDescriptor rt value linked
        encodeMessage rt levels value nestedDesc buf
      let (buf, counts) ← desc.inner.fields.foldlM (encodeField rt nested desc instance_)
        (buf, List.replicate desc.inner.oneofs.length 0)
      checkOneofs desc.inner.oneofs counts
      encodeUnknown rt instance_ buf

/-- `Descriptor.encode`: encode a message instance from the top. -/
def encode (rt : Runtime V) (descId : DescId) (instance_ : V) : PyResult Bytes :=
  encodeMessage rt (maxDepth + 1) instance_ descId []

end FastProto
