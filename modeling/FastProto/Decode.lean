import FastProto.Encode

/-! # The decoder (`src/decode/mod.rs`)

The decoder parses the field stream, converts each recognised field to a Python object and collects
the values per field index; everything else is kept verbatim as unknown bytes. The instance is then
built either with `object.__new__` and `setattr` (the fast path verified at link time) or by calling
the class with keyword arguments. -/

namespace FastProto

open Lib Lib.Cursor

/-- The Python classes and the compiled descriptors. -/
structure World where
  cls : ClassId → PyClass
  descriptor : DescId → Descriptor

/-- Iterating a value that is neither a `list` nor a `tuple`: the keys of a `dict`, the integers of
a `bytearray`. -/
def PyVal.iter : PyVal → PyResult (List PyVal)
  | .dict items => .ok (items.map (·.1))
  | .bytearray b => .ok (b.map fun byte => .int byte.toNat)
  | _ => .error (.typeError "object is not iterable")

/-- The world as the encoder sees it. -/
def World.runtime (w : World) : Runtime PyVal where
  view := PyVal.shape
  iter := PyVal.iter
  getattribute := fun cls attrs name => (w.cls cls).getattr attrs name
  typeDescriptor := fun cls => (w.cls cls).fastproto
  descriptor := w.descriptor

@[simp] theorem World.runtime_view (w : World) : w.runtime.view = PyVal.shape := rfl

@[simp] theorem World.runtime_descriptor (w : World) : w.runtime.descriptor = w.descriptor := rfl

/-- The debug text of a wire error. -/
def WireError.debug : WireError → String
  | .unexpectedEof => "UnexpectedEof"
  | .varintOverflow => "VarintOverflow"
  | .invalidWireType code => "InvalidWireType(" ++ toString code.toNat ++ ")"
  | .invalidLength => "InvalidLength"
  | .invalidFieldNumber number => "InvalidFieldNumber(" ++ toString number.toNat ++ ")"

/-- Map a low-level wire error to a Python exception. -/
def wireErr (err : WireError) : PyErr := .valueError ("malformed protobuf data: " ++ err.debug)

/-- A step of the decoder on a reader. -/
abbrev DecodeM := Scan UInt8 PyErr

/-- A step of the wire reader inside the decoder (`map_err(wire_err)`). -/
def orWireErr {α : Type} (f : ReadM α) : DecodeM α := mapErr wireErr f

/-! ## Scalars and enums -/

/-- `from_utf8` on a string field. -/
def decodeStr (bytes : Bytes) : PyResult PyVal :=
  match fromUtf8 bytes with
  | some s => .ok (.str s)
  | none => .error (.valueError "invalid utf-8 in string field")

/-- Read one scalar payload off the reader and convert it to a Python object. -/
def decodeScalar (scalar : ScalarType) : DecodeM PyVal :=
  match scalar with
  | .int32 => do
      let raw ← orWireErr Reader.readVarint
      pure (.int raw.toUInt32.toInt32.toInt)
  | .int64 => do
      let raw ← orWireErr Reader.readVarint
      pure (.int raw.toInt64.toInt)
  | .uint32 => do
      let raw ← orWireErr Reader.readVarint
      pure (.int raw.toUInt32.toNat)
  | .uint64 => do
      let raw ← orWireErr Reader.readVarint
      pure (.int raw.toNat)
  | .sint32 => do
      let raw ← orWireErr Reader.readVarint
      pure (.int (zigzagDecode32 raw.toUInt32).toInt)
  | .sint64 => do
      let raw ← orWireErr Reader.readVarint
      pure (.int (zigzagDecode64 raw).toInt)
  | .bool => do
      let raw ← orWireErr Reader.readVarint
      pure (.bool (decide (raw ≠ 0)))
  | .fixed32 => do
      let raw ← orWireErr Reader.readFixed32
      pure (.int raw.toNat)
  | .sfixed32 => do
      let raw ← orWireErr Reader.readFixed32
      pure (.int raw.toInt32.toInt)
  | .float => do
      let raw ← orWireErr Reader.readFixed32
      pure (.float (FloatBits.widen raw))
  | .fixed64 => do
      let raw ← orWireErr Reader.readFixed64
      pure (.int raw.toNat)
  | .sfixed64 => do
      let raw ← orWireErr Reader.readFixed64
      pure (.int raw.toInt64.toInt)
  | .double => do
      let raw ← orWireErr Reader.readFixed64
      pure (.float raw)
  | .string => do
      let bytes ← orWireErr Reader.readLenDelimited
      StateT.lift (decodeStr bytes)
  | .bytes => do
      let bytes ← orWireErr Reader.readLenDelimited
      pure (.bytes bytes)

/-- The Python default object for a scalar. -/
def scalarDefault : ScalarType → PyVal
  | .float | .double => .float 0
  | .bool => .bool false
  | .string => .str ""
  | .bytes => .bytes []
  | _ => .int 0

/-- `cls(value)` on an enum class: the member, or what `_missing_` makes of the value. -/
def PyClass.callValue (id : ClassId) (cls : PyClass) (value : Int) : PyResult PyVal :=
  match cls.enum with
  | none => .error (.typeError "not an enum")
  | some enum =>
      if value ∈ enum.values then .ok (.member id value)
      else
        match enum.missing with
        | some hook => hook value
        | none => .error (.valueError "not a valid enum value")

/-- Coerce an integer to its Python `IntEnum` subclass; an unmapped value stays a raw int. -/
def coerceEnum (w : World) (linked : Option LinkedRef) (value : Int32) : PyResult PyVal :=
  match linked with
  | none => .ok (.int value.toInt)
  | some linked =>
      -- a negative value wraps far past the table and falls through
      match linked.enumTable.bind fun table => table[value.toInt64.toUInt64.toNat]? with
      | some slot => .ok (slot.getD (.int value.toInt))
      | none =>
          match linked.enumMap with
          | some map => .ok ((map.lookup value.toInt).getD (.int value.toInt))
          | none =>
              match (w.cls linked.cls).callValue linked.cls value.toInt with
              | .ok member => .ok member
              | .error (.valueError _) => .ok (.int value.toInt)
              | .error err => .error err

/-! ## Fields

`nested` decodes a nested message one level down: the recursive call of `decode_message_value`. -/

/-- How a nested message is decoded: its class, the descriptor of the class, the bytes. -/
abbrev NestedDecoder := ClassId → DescId → Bytes → PyResult PyVal

section Fields

variable (w : World) (nested : NestedDecoder)

/-- Decode a nested message through its class's cached descriptor. -/
def decodeMessageValue (linked : Option LinkedRef) (data : Bytes) : PyResult PyVal :=
  match linked with
  | none => .error (.runtimeError "message field was not linked to a class")
  | some linked =>
      match linked.desc with
      | some desc => nested linked.cls desc data
      | none => .error (.typeError "linked class is not a fastproto message")

/-- Decode a Timestamp payload. -/
def decodeTimestamp (sub : Bytes) : PyResult PyVal := do
  let (secs, nanos) ← (decodeParts sub).mapError wireErr
  let d ← partsToDatetime secs nanos
  .ok (.datetime d)

/-- Decode a Duration payload. -/
def decodeDuration (sub : Bytes) : PyResult PyVal := do
  let (secs, nanos) ← (decodeParts sub).mapError wireErr
  let d ← partsToTimedelta secs nanos
  .ok (.timedelta d)

/-- The value of an enum varint: `raw as u32 as i32`. -/
def decodeEnum (linked : Option LinkedRef) (raw : UInt64) : PyResult PyVal :=
  coerceEnum w linked raw.toUInt32.toInt32

/-- Append one or more repeated elements (handling packed encoding); `none`, without consuming any
bytes, when the wire type does not match the field. -/
def decodeRepeated (kind : FieldKind) (linked : Option LinkedRef) (wire : WireType)
    (list : List PyVal) : DecodeM (Option (List PyVal)) :=
  match kind with
  | .scalar scalar =>
      if scalar.isPackable then
        if wire = .len then do
          let chunk ← orWireErr Reader.readLenDelimited
          let list ← StateT.lift (drainAll
            (fun list => do
              let item ← decodeScalar scalar
              pure (list ++ [item]))
            list (Reader.new chunk))
          pure (some list)
        else if wire = scalar.wireType then do
          let item ← decodeScalar scalar
          pure (some (list ++ [item]))
        else pure none
      else if wire = .len then do
        let item ← decodeScalar scalar
        pure (some (list ++ [item]))
      else pure none
  | .enum =>
      if wire = .len then do
        let chunk ← orWireErr Reader.readLenDelimited
        let list ← StateT.lift (drainAll
          (fun list => do
            let raw ← orWireErr Reader.readVarint
            let item ← StateT.lift (decodeEnum w linked raw)
            pure (list ++ [item]))
          list (Reader.new chunk))
        pure (some list)
      else if wire = .varint then do
        let raw ← orWireErr Reader.readVarint
        let item ← StateT.lift (decodeEnum w linked raw)
        pure (some (list ++ [item]))
      else pure none
  | .message =>
      if wire = .len then do
        let sub ← orWireErr Reader.readLenDelimited
        let item ← StateT.lift (decodeMessageValue nested linked sub)
        pure (some (list ++ [item]))
      else pure none
  | .timestamp =>
      if wire = .len then do
        let sub ← orWireErr Reader.readLenDelimited
        let item ← StateT.lift (decodeTimestamp sub)
        pure (some (list ++ [item]))
      else pure none
  | .duration =>
      if wire = .len then do
        let sub ← orWireErr Reader.readLenDelimited
        let item ← StateT.lift (decodeDuration sub)
        pure (some (list ++ [item]))
      else pure none
  | .map _ _ => throw (.panicked "maps handled separately")

/-- The loop body of `decode_map_entry`, on the key and the value seen so far. -/
def mapEntryBody (key : ScalarType) (valueKind : MapValue) (linked : Option LinkedRef)
    (entry : Option PyVal × Option PyVal) : DecodeM (Option PyVal × Option PyVal) := do
  let (number, wire) ← orWireErr Reader.readTag
  if number = 1 ∧ wire = key.wireType then do
    let k ← decodeScalar key
    pure (some k, entry.2)
  else if number = 2 then
    match valueKind with
    | .scalar scalar =>
        if wire = scalar.wireType then do
          let v ← decodeScalar scalar
          pure (entry.1, some v)
        else do
          orWireErr (Reader.skip wire)
          pure entry
    | .enum =>
        if wire = .varint then do
          let raw ← orWireErr Reader.readVarint
          let v ← StateT.lift (decodeEnum w linked raw)
          pure (entry.1, some v)
        else do
          orWireErr (Reader.skip wire)
          pure entry
    | .message =>
        if wire = .len then do
          let sub ← orWireErr Reader.readLenDelimited
          let v ← StateT.lift (decodeMessageValue nested linked sub)
          pure (entry.1, some v)
        else do
          orWireErr (Reader.skip wire)
          pure entry
    | .timestamp =>
        if wire = .len then do
          let sub ← orWireErr Reader.readLenDelimited
          let v ← StateT.lift (decodeTimestamp sub)
          pure (entry.1, some v)
        else do
          orWireErr (Reader.skip wire)
          pure entry
    | .duration =>
        if wire = .len then do
          let sub ← orWireErr Reader.readLenDelimited
          let v ← StateT.lift (decodeDuration sub)
          pure (entry.1, some v)
        else do
          orWireErr (Reader.skip wire)
          pure entry
  else do
    orWireErr (Reader.skip wire)
    pure entry

/-- The value of an entry that carries none. -/
def mapValueDefault (valueKind : MapValue) (linked : Option LinkedRef) : PyResult PyVal :=
  match valueKind with
  | .scalar scalar => .ok (scalarDefault scalar)
  | .enum => coerceEnum w linked 0
  | .message => decodeMessageValue nested linked []
  | .timestamp => do
      let d ← partsToDatetime 0 0
      .ok (.datetime d)
  | .duration => do
      let d ← partsToTimedelta 0 0
      .ok (.timedelta d)

/-- Decode a single `map<K, V>` entry message into `(key, value)` objects. -/
def decodeMapEntry (key : ScalarType) (valueKind : MapValue) (linked : Option LinkedRef)
    (entry : Bytes) : PyResult (PyVal × PyVal) := do
  let (k, v) ← drainAll (mapEntryBody w nested key valueKind linked) (none, none)
    (Reader.new entry)
  let k := k.getD (scalarDefault key)
  let v ←
    match v with
    | some v => .ok v
    | none => mapValueDefault w nested valueKind linked
  .ok (k, v)

/-! ## Messages -/

/-- The pattern of a float without its sign is that of a NaN. -/
def isNanBits (bits : UInt64) : Bool := decide (0x7ff0000000000000 < bits.toNat % 2 ^ 63)

/-- Python equality of two dict keys decoded for one key type. -/
def keyEq : PyVal → PyVal → Bool
  | .int a, .int b => a == b
  | .bool a, .bool b => a == b
  | .str a, .str b => a == b
  | .bytes a, .bytes b => a == b
  | .float a, .float b =>
      !isNanBits a && !isNanBits b && (a == b || (a.toNat % 2 ^ 63 == 0 && b.toNat % 2 ^ 63 == 0))
  | _, _ => false

/-- `dict.__setitem__`: an equal key keeps its place and its key object. -/
abbrev dictSet : List (PyVal × PyVal) → PyVal → PyVal → List (PyVal × PyVal) := upsertBy keyEq

/-- The local variables of `decode_message`. -/
structure DecodeState where
  /-- The decoded value per field index; `none` = not seen on the wire. -/
  values : List (Option PyVal)
  unknown : Bytes := []
  /-- For each oneof group, the field index currently occupying it. -/
  oneofOwner : List (UInt32 × Nat) := []

/-- The accumulator pre-created for a repeated (list) or map (dict) field. -/
def accumulator (field : FieldDescriptor) : Option PyVal :=
  match field.kind with
  | .map _ _ => some (.dict [])
  | _ => if field.label = .repeated then some (.list []) else none

/-- The state before the first tag. -/
def DecodeState.init (fields : List FieldDescriptor) : DecodeState :=
  { values := fields.map accumulator }

/-- `values[idx] = Some(value)`. -/
def DecodeState.store (st : DecodeState) (idx : Nat) (value : PyVal) : DecodeState :=
  { st with values := st.values.set idx (some value) }

/-- `unknown.extend_from_slice(raw)`. -/
def DecodeState.keep (st : DecodeState) (raw : Bytes) : DecodeState :=
  { st with unknown := st.unknown ++ raw }

/-- A oneof member about to be set clears any earlier member of its group. -/
def DecodeState.claimOneof (st : DecodeState) (field : FieldDescriptor) (idx : Nat) :
    DecodeState :=
  match field.oneofIndex, field.label with
  | some group, .optional =>
      { st with
        values :=
          match st.oneofOwner.lookup group with
          | some prev => if prev ≠ idx then st.values.set prev none else st.values
          | none => st.values
        oneofOwner := (group, idx) :: st.oneofOwner }
  | _, _ => st

/-- The wire type of a singular or map field. -/
def FieldKind.expectedWire : FieldKind → WireType
  | .scalar s => s.wireType
  | .enum => .varint
  | .message | .timestamp | .duration | .map _ _ => .len

/-- Read the value of a singular field. -/
def decodeSingle (kind : FieldKind) (linked : Option LinkedRef) : DecodeM PyVal :=
  match kind with
  | .scalar scalar => decodeScalar scalar
  | .enum => do
      let raw ← orWireErr Reader.readVarint
      StateT.lift (decodeEnum w linked raw)
  | .message => do
      let sub ← orWireErr Reader.readLenDelimited
      StateT.lift (decodeMessageValue nested linked sub)
  | .timestamp => do
      let sub ← orWireErr Reader.readLenDelimited
      StateT.lift (decodeTimestamp sub)
  | .duration => do
      let sub ← orWireErr Reader.readLenDelimited
      StateT.lift (decodeDuration sub)
  | .map _ _ => throw (.panicked "maps handled separately")

/-- Skip a field and keep the bytes read since `start` as unknown. -/
def keepUnknown (st : DecodeState) (wire : WireType) (start : Nat) : DecodeM DecodeState := do
  orWireErr (Reader.skip wire)
  let raw ← rawSince start
  pure (st.keep raw)

/-- The loop body of `decode_message` on a field the descriptor has, at index `idx`. -/
def decodeField (desc : Descriptor) (st : DecodeState) (idx : Nat) (field : FieldDescriptor)
    (wire : WireType) (start : Nat) : DecodeM DecodeState :=
  let linked := desc.ref field.number
  if field.label ≠ .repeated ∧ wire ≠ field.kind.expectedWire then keepUnknown st wire start
  else
    let st := st.claimOneof field idx
    match field.kind with
    | .map key value => do
        let entry ← orWireErr Reader.readLenDelimited
        let (k, v) ← StateT.lift (decodeMapEntry w nested key value linked entry)
        match st.values[idx]? with
        | some (some (.dict items)) => pure (st.store idx (.dict (dictSet items k v)))
        | _ => throw (.panicked "called `Option::unwrap()` on a `None` value")
    | kind =>
        if field.label = .repeated then
          match st.values[idx]? with
          | some (some (.list items)) => do
              match ← decodeRepeated w nested kind linked wire items with
              | some items => pure (st.store idx (.list items))
              | none => keepUnknown st wire start
          | _ => throw (.panicked "called `Option::unwrap()` on a `None` value")
        else do
          let value ← decodeSingle w nested kind linked
          pure (st.store idx value)

/-- The loop body of `decode_message`. -/
def decodeBody (desc : Descriptor) (st : DecodeState) : DecodeM DecodeState := fun reader =>
  let start := reader.pos
  (do
    let (number, wire) ← orWireErr Reader.readTag
    match desc.fieldIndex.get number with
    | none => keepUnknown st wire start
    | some idx =>
        match desc.inner.fields[idx]? with
        | some field => decodeField w nested desc st idx field wire start
        | none => throw (.panicked "index out of bounds") : DecodeM DecodeState) reader

end Fields

/-! ## Construction -/

/-- Store the raw unknown-field bytes on the instance, whatever `setattr` raises; objects without the
slot reject it. -/
def setUnknown (w : World) (instance_ : PyVal) (unknown : Bytes) : PyResult PyVal :=
  match instance_ with
  | .inst cls attrs =>
      ((w.cls cls).storeUnknown (fun _ => true) attrs unknown).map fun attrs => .inst cls attrs
  | _ => .error (.attributeError unknownSlot)

/-- `kwargs.set_item(name, value)` for a field that was seen. -/
def passSeen (kwargs : Kwargs) (seen : FieldDescriptor × Option PyVal) : Kwargs :=
  match seen.2 with
  | some v => setAttr kwargs seen.1.name v
  | none => kwargs

/-- The keyword arguments for the fields seen on the wire. -/
def decodedKwargs (fields : List FieldDescriptor) (values : List (Option PyVal)) : Kwargs :=
  (fields.zip values).foldl passSeen []

/-- What the fast path assigns: the values seen and the captured defaults of the other fields. -/
def fastAttrs (fields : List FieldDescriptor) (values : List (Option PyVal)) (defaults : List PyVal) :
    List (String × PyVal) :=
  ((fields.zip values).zip defaults).map fun p => (p.1.1.name, p.1.2.getD p.2)

/-- Build the instance with `object.__new__` + per-field setattr. -/
def constructFast (w : World) (desc : Descriptor) (fast : FastInit)
    (values : List (Option PyVal)) (unknown : Bytes) : PyResult PyVal := do
  let attrs ← (w.cls fast.cls).objectNew
  let attrs ← (w.cls fast.cls).assign attrs (fastAttrs desc.inner.fields values fast.defaults)
  setUnknown w (.inst fast.cls attrs) unknown

/-- The normal route: `cls(**kwargs)`, then the unknown bytes if there are any. -/
def constructGeneral (w : World) (cls : ClassId) (desc : Descriptor)
    (values : List (Option PyVal)) (unknown : Bytes) : PyResult PyVal := do
  let instance_ ← (w.cls cls).call cls (decodedKwargs desc.inner.fields values)
  if unknown ≠ [] then setUnknown w instance_ unknown else .ok instance_

/-- Build the instance, on the fast path when it was verified for exactly this class. -/
def construct (w : World) (cls : ClassId) (desc : Descriptor) (values : List (Option PyVal))
    (unknown : Bytes) : PyResult PyVal :=
  match desc.fastInit with
  | some fast =>
      if cls = fast.cls then constructFast w desc fast values unknown
      else constructGeneral w cls desc values unknown
  | none => constructGeneral w cls desc values unknown

/-- Building an instance looks at the classes only. -/
theorem construct_congr {w w' : World} (h : w.cls = w'.cls) (cls : ClassId) (desc : Descriptor)
    (values : List (Option PyVal)) (unknown : Bytes) :
    construct w cls desc values unknown = construct w' cls desc values unknown := by
  unfold construct constructFast constructGeneral setUnknown
  rw [h]

/-- Decode `data` into a new instance of `cls` according to a descriptor. `levels` counts the
nesting levels left: `MAX_DEPTH + 1 - depth`. -/
def decodeMessage (w : World) : Nat → ClassId → DescId → Bytes → PyResult PyVal
  | 0, _, _, _ => .error (.valueError ("message nesting exceeded " ++ toString maxDepth ++ " levels"))
  | levels + 1, cls, descId, data => do
      let desc := w.descriptor descId
      let st ← drainAll (decodeBody w (decodeMessage w levels) desc)
        (DecodeState.init desc.inner.fields) (Reader.new data)
      construct w cls desc st.values st.unknown

/-- `Descriptor.decode`: decode a message from the top. -/
def decode (w : World) (descId : DescId) (cls : ClassId) (data : Bytes) : PyResult PyVal :=
  decodeMessage w (maxDepth + 1) cls descId data

end FastProto
