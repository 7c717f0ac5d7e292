import FastProto.Encode

/-! # The encoder as a list of records

What the encoder writes is the bytes of a list of records: one per singular field that is not left
out, one per element of a list that is not packed, one per packed list, one per map entry. The
records are built here with every submessage in a buffer of its own, and `encodeMessage_eq` shows
that encoding in place appends exactly their bytes, errors included. -/

namespace FastProto

open Lib Lib.Cursor

variable {V : Type}

/-! ## Payloads of single values -/

/-- The payload of a scalar value. -/
def scalarPayload (scalar : ScalarType) (value : PyShape V) : PyResult Payload :=
  match scalar with
  | .int32 => do
      let v ← value.extractI32
      .ok (.varint v.toInt64.toUInt64)
  | .int64 => do
      let v ← value.extractI64
      .ok (.varint v.toUInt64)
  | .uint32 => do
      let v ← value.extractU32
      .ok (.varint v.toUInt64)
  | .uint64 => do
      let v ← value.extractU64
      .ok (.varint v)
  | .sint32 => do
      let v ← value.extractI32
      .ok (.varint (zigzagEncode32 v).toUInt64)
  | .sint64 => do
      let v ← value.extractI64
      .ok (.varint (zigzagEncode64 v))
  | .bool => do
      let v ← value.extractBool
      .ok (.varint (if v then 1 else 0))
  | .fixed32 => do
      let v ← value.extractU32
      .ok (.i32 v)
  | .sfixed32 => do
      let v ← value.extractI32
      .ok (.i32 v.toUInt32)
  | .float => do
      let bits ← value.extractF32
      .ok (.i32 bits)
  | .fixed64 => do
      let v ← value.extractU64
      .ok (.i64 v)
  | .sfixed64 => do
      let v ← value.extractI64
      .ok (.i64 v.toUInt64)
  | .double => do
      let bits ← value.extractF64
      .ok (.i64 bits)
  | .string => do
      let s ← value.strBytes
      .ok (.len s)
  | .bytes => do
      let b ← value.byteSlice
      .ok (.len b)

/-- The payload of an enum value. -/
def enumPayload (value : PyShape V) : PyResult Payload := do
  let v ← value.extractI32
  .ok (.varint v.toInt64.toUInt64)

/-- Whether a payload is the one of a type default: zero bits, or no bytes. -/
def Payload.isDefault : Payload → Bool
  | .varint value => decide (value = 0)
  | .i64 bits => decide (bits = 0)
  | .len data => data.isEmpty
  | .i32 bits => decide (bits = 0)

/-- The payload of a scalar has the wire type of the scalar. -/
theorem wire_of_scalarPayload {scalar : ScalarType} {value : PyShape V} {payload : Payload}
    (h : scalarPayload scalar value = .ok payload) : payload.wire = scalar.wireType := by
  cases scalar <;>
  · obtain ⟨v, -, h⟩ := bind_eq_ok.mp h
    cases h
    rfl

/-- `encode_scalar` appends the payload of the scalar. -/
theorem encodeScalar_eq (buf : Bytes) (scalar : ScalarType) (value : PyShape V) :
    encodeScalar buf scalar value
      = scalarPayload scalar value >>= fun payload => .ok (buf ++ payload.bytes) := by
  cases scalar <;>
  · simp only [encodeScalar, scalarPayload, bind_assoc, ok_bind, writeVarint_eq, writeFixed32,
      writeFixed64, writeLenDelimited_eq, Payload.bytes]

/-- The payload of an enum value is a varint. -/
theorem encodeEnum_eq (buf : Bytes) (value : PyShape V) :
    encodeEnum buf value = enumPayload value >>= fun payload => .ok (buf ++ payload.bytes) := by
  simp only [encodeEnum, enumPayload, bind_assoc, ok_bind, writeVarint_eq, Payload.bytes]

/-- Only zero zig-zags to zero. -/
theorem zigzagEncode32_eq_zero {v : Int32} : zigzagEncode32 v = 0 ↔ v = 0 := by
  constructor
  · intro h
    rw [← zigzagDecode32_zigzagEncode32 v, h]
    decide
  · rintro rfl
    decide

/-- Only zero zig-zags to zero. -/
theorem zigzagEncode64_eq_zero {v : Int64} : zigzagEncode64 v = 0 ↔ v = 0 := by
  constructor
  · intro h
    rw [← zigzagDecode64_zigzagEncode64 v, h]
    decide
  · rintro rfl
    decide

/-- Sign extension is undone by dropping the high half. -/
theorem toInt32_signExtend (v : Int32) : v.toInt64.toUInt64.toUInt32.toInt32 = v := by
  apply Int32.toBitVec.inj
  show (v.toInt64.toBitVec).setWidth 32 = v.toBitVec
  rw [Int32.toBitVec_toInt64]
  apply BitVec.eq_of_getLsbD_eq
  intro i hi
  simp [BitVec.getLsbD_signExtend, hi]
  omega

/-- Only zero sign-extends to zero. -/
theorem toInt64_eq_zero {v : Int32} : v.toInt64 = 0 ↔ v = 0 := by
  constructor
  · intro h
    rw [← toInt32_signExtend v, h]
    decide
  · rintro rfl
    decide

/-- A 64-bit integer is zero iff its bits are. -/
theorem toUInt64_eq_zero {v : Int64} : v.toUInt64 = 0 ↔ v = 0 := by
  rw [← Int64.toBitVec_inj, ← UInt64.toBitVec_inj]
  rfl

/-- A 32-bit integer is zero iff its bits are. -/
theorem toUInt32_eq_zero {v : Int32} : v.toUInt32 = 0 ↔ v = 0 := by
  rw [← Int32.toBitVec_inj, ← UInt32.toBitVec_inj]
  rfl

/-- A 32-bit word is zero iff it is as a 64-bit word. -/
theorem zeroExtend_eq_zero {v : UInt32} : v.toUInt64 = 0 ↔ v = 0 := by
  rw [← UInt64.toNat_inj, ← UInt32.toNat_inj, UInt32.toNat_toUInt64]
  rfl

/-- Writing a record or nothing. -/
theorem append_recordsBytes_ite (buf : Bytes) (skip : Bool) (rec : Record) :
    buf ++ recordsBytes (if skip then [] else [rec]) = if skip then buf else buf ++ rec.bytes := by
  cases skip with
  | true => simp
  | false => simp

/-- A tag and a payload appended to the buffer are a record appended. -/
theorem writeTag_append (buf : Bytes) (number : UInt32) (payload : Payload) :
    writeTag buf number payload.wire ++ payload.bytes
      = buf ++ (⟨number, payload⟩ : Record).bytes := by
  rw [writeTag_eq, Record.bytes, List.append_assoc]

/-- **`encode_scalar_field` appends one record, or none for a default it may skip.** -/
theorem encodeScalarField_eq (buf : Bytes) (number : UInt32) (scalar : ScalarType)
    (value : PyShape V) (skipDefault : Bool) :
    encodeScalarField buf number scalar value skipDefault
      = scalarPayload scalar value >>= fun payload =>
          .ok (buf ++ recordsBytes
            (if skipDefault && payload.isDefault then [] else [⟨number, payload⟩])) := by
  have hvarint : ∀ raw, writeVarint (writeTag buf number .varint) raw
      = buf ++ (⟨number, .varint raw⟩ : Record).bytes := fun raw => by
    rw [writeVarint_eq]
    exact writeTag_append buf number (.varint raw)
  have hfixed32 : ∀ bits, writeFixed32 (writeTag buf number .i32) bits
      = buf ++ (⟨number, .i32 bits⟩ : Record).bytes := fun bits =>
    writeTag_append buf number (.i32 bits)
  have hfixed64 : ∀ bits, writeFixed64 (writeTag buf number .i64) bits
      = buf ++ (⟨number, .i64 bits⟩ : Record).bytes := fun bits =>
    writeTag_append buf number (.i64 bits)
  have hlen : ∀ data, writeLenDelimited (writeTag buf number .len) data
      = buf ++ (⟨number, .len data⟩ : Record).bytes := fun data => by
    rw [writeLenDelimited_eq]
    exact writeTag_append buf number (.len data)
  simp only [append_recordsBytes_ite]
  cases scalar with
  | bool =>
      simp only [encodeScalarField, scalarPayload, bind_assoc, ok_bind, hvarint]
      refine congrArg _ (funext fun v => ?_)
      cases v <;> cases skipDefault <;> simp [Payload.isDefault]
  | _ =>
      simp only [encodeScalarField, scalarPayload, bind_assoc, ok_bind, hvarint, hfixed32, hfixed64,
        hlen, Payload.isDefault, toInt64_eq_zero, toUInt64_eq_zero, toUInt32_eq_zero,
        zeroExtend_eq_zero, zigzagEncode32_eq_zero, zigzagEncode64_eq_zero] <;> rfl

/-! ## Records of a field -/

/-- How the payload of a nested message is built. -/
abbrev NestedPayload (V : Type) := V → Option LinkedRef → PyResult Bytes

section Fields

variable (rt : Runtime V) (plain : NestedPayload V)

/-- The payload of one value of a field. -/
def valuePayload (kind : FieldKind) (value : V) (linked : Option LinkedRef) : PyResult Payload :=
  match kind with
  | .scalar scalar => scalarPayload scalar (rt.view value)
  | .enum => enumPayload (rt.view value)
  | .message => do
      let data ← plain value linked
      .ok (.len data)
  | .timestamp => do
      let (secs, nanos) ← datetimeToParts (rt.view value)
      .ok (.len (recordsBytes (partsRecords secs nanos)))
  | .duration => do
      let (secs, nanos) ← timedeltaToParts (rt.view value)
      .ok (.len (recordsBytes (partsRecords secs nanos)))
  | .map _ _ => .error (.panicked "maps handled separately")

/-- The packed record of a list of payloads, or none for an empty list. -/
def packedRecords (number : UInt32) (payloads : List Payload) : List Record :=
  let data := payloads.flatMap Payload.bytes
  if data.isEmpty then [] else [⟨number, .len data⟩]

/-- The records of a repeated field. -/
def repeatedRecords (number : UInt32) (kind : FieldKind) (value : V)
    (linked : Option LinkedRef) : PyResult (List Record) :=
  if (rt.view value).isStrOrBytes then
    .error (.typeError "repeated field must be a list of elements, not a str/bytes")
  else
    match kind with
    | .map _ _ => .error (.panicked "maps handled separately")
    | _ => do
        let items ← rt.items value
        let payloads ← items.mapM fun item => valuePayload rt plain kind item linked
        .ok (if kind.isPacked then packedRecords number payloads
          else payloads.map fun payload => ⟨number, payload⟩)

/-- The payload of a map entry: the key as field 1 and the value as field 2. -/
def entryPayload (key : ScalarType) (valueKind : MapValue) (linked : Option LinkedRef)
    (entry : V × V) : PyResult Payload := do
  let keyPayload ← scalarPayload key (rt.view entry.1)
  let payload ← valuePayload rt plain valueKind.kind entry.2 linked
  .ok (.len (recordsBytes [⟨1, keyPayload⟩, ⟨2, payload⟩]))

/-- The records of a map field. -/
def mapRecords (number : UInt32) (key : ScalarType) (valueKind : MapValue) (value : V)
    (linked : Option LinkedRef) : PyResult (List Record) :=
  match rt.view value with
  | .dict items => do
      let payloads ← items.mapM (entryPayload rt plain key valueKind linked)
      .ok (payloads.map fun payload => ⟨number, payload⟩)
  | _ => .error (.typeError "map field must be a dict")

/-- The records of one field of an instance, and the oneof counters after it. -/
def fieldRecords (desc : Descriptor) (instance_ : V) (counts : List Nat)
    (field : FieldDescriptor) : PyResult (List Record × List Nat) := do
  let value ← rt.getattr instance_ field.name
  let linked := desc.ref field.number
  match field.kind with
  | .map key valKind => do
      let recs ← mapRecords rt plain field.number key valKind value linked
      .ok (recs, counts)
  | kind =>
      match field.label with
      | .repeated => do
          let recs ← repeatedRecords rt plain field.number kind value linked
          .ok (recs, counts)
      | .optional =>
          if (rt.view value).isNone then .ok ([], counts)
          else do
            let counts ← countMember counts field.oneofIndex
            let payload ← valuePayload rt plain kind value linked
            .ok ([⟨field.number, payload⟩], counts)
      | .single => do
          let payload ← valuePayload rt plain kind value linked
          -- only scalars and enums have a default that is not written
          .ok (if !kind.isMessageLike && payload.isDefault then [] else [⟨field.number, payload⟩],
            counts)

section FieldRecords

variable {desc : Descriptor} {instance_ value : V} {counts : List Nat} {field : FieldDescriptor}

/-- The records of a map field. -/
theorem fieldRecords_map (hget : rt.getattr instance_ field.name = .ok value) {key : ScalarType}
    {valueKind : MapValue} (hkind : field.kind = .map key valueKind) :
    fieldRecords rt plain desc instance_ counts field
      = mapRecords rt plain field.number key valueKind value (desc.ref field.number) >>= fun recs =>
          .ok (recs, counts) := by
  unfold fieldRecords
  rw [hget, ok_bind]
  simp only [hkind]

/-- The records of a repeated field. -/
theorem fieldRecords_repeated (hget : rt.getattr instance_ field.name = .ok value)
    (hmap : field.kind.isMap = false) (hlabel : field.label = .repeated) :
    fieldRecords rt plain desc instance_ counts field
      = repeatedRecords rt plain field.number field.kind value (desc.ref field.number)
          >>= fun recs => .ok (recs, counts) := by
  unfold fieldRecords
  rw [hget, ok_bind]
  cases hk : field.kind with
  | map key valueKind => rw [hk] at hmap; cases hmap
  | _ => simp only [hlabel]

/-- A field with presence that is None has no record. -/
theorem fieldRecords_none (hget : rt.getattr instance_ field.name = .ok value)
    (hmap : field.kind.isMap = false) (hlabel : field.label = .optional)
    (hnone : (rt.view value).isNone = true) :
    fieldRecords rt plain desc instance_ counts field = .ok ([], counts) := by
  unfold fieldRecords
  rw [hget, ok_bind]
  cases hk : field.kind with
  | map key valueKind => rw [hk] at hmap; cases hmap
  | _ => simp only [hlabel, hnone, if_true]

/-- A field with presence that is set has one record, and is counted. -/
theorem fieldRecords_some (hget : rt.getattr instance_ field.name = .ok value)
    (hmap : field.kind.isMap = false) (hlabel : field.label = .optional)
    (hnone : (rt.view value).isNone = false) :
    fieldRecords rt plain desc instance_ counts field
      = countMember counts field.oneofIndex >>= fun counts =>
          valuePayload rt plain field.kind value (desc.ref field.number) >>= fun payload =>
            .ok ([⟨field.number, payload⟩], counts) := by
  unfold fieldRecords
  rw [hget, ok_bind]
  cases hk : field.kind with
  | map key valueKind => rw [hk] at hmap; cases hmap
  | _ => simp only [hlabel, hnone]; rfl

/-- A field without presence has one record, or none for a default that is left out. -/
theorem fieldRecords_single (hget : rt.getattr instance_ field.name = .ok value)
    (hmap : field.kind.isMap = false) (hlabel : field.label = .single) :
    fieldRecords rt plain desc instance_ counts field
      = valuePayload rt plain field.kind value (desc.ref field.number) >>= fun payload =>
          .ok (if !field.kind.isMessageLike && payload.isDefault then []
            else [⟨field.number, payload⟩], counts) := by
  unfold fieldRecords
  rw [hget, ok_bind]
  cases hk : field.kind with
  | map key valueKind => rw [hk] at hmap; cases hmap
  | _ => simp only [hlabel]

end FieldRecords

/-- The records of a message from a list of fields on, after those written already. -/
def fieldsRecords (desc : Descriptor) (instance_ : V) (fields : List FieldDescriptor)
    (st : List Record × List Nat) : PyResult (List Record × List Nat) :=
  fields.foldlM
    (fun st field => do
      let (recs, counts) ← fieldRecords rt plain desc instance_ st.2 field
      .ok (st.1 ++ recs, counts))
    st

/-- The unknown bytes an instance carries. -/
def unknownOf (instance_ : V) : PyResult Bytes :=
  match rt.getattr instance_ unknownSlot with
  | .ok raw => (rt.view raw).byteSlice
  | .error _ => .ok []

end Fields

/-- The records of a message, and the unknown bytes that follow them. -/
def messageRecords (rt : Runtime V) : Nat → V → DescId → PyResult (List Record × Bytes)
  | 0, _, _ => .error (.valueError ("message nesting exceeded " ++ toString maxDepth ++ " levels"))
  | levels + 1, instance_, descId => do
      let desc := rt.descriptor descId
      let plain : NestedPayload V := fun value linked => do
        let nestedDesc ← nestedDescriptor rt value linked
        let (recs, unknown) ← messageRecords rt levels value nestedDesc
        .ok (recordsBytes recs ++ unknown)
      let (recs, counts) ← fieldsRecords rt plain desc instance_ desc.inner.fields
        ([], List.replicate desc.inner.oneofs.length 0)
      checkOneofs desc.inner.oneofs counts
      let unknown ← unknownOf rt instance_
      .ok (recs, unknown)

/-- The payload of a nested message, `levels` deep at most. -/
def plainPayload (rt : Runtime V) (levels : Nat) : NestedPayload V := fun value linked => do
  let nestedDesc ← nestedDescriptor rt value linked
  let (recs, unknown) ← messageRecords rt levels value nestedDesc
  .ok (recordsBytes recs ++ unknown)

/-- One level of a message: the fields, the check of the oneof groups, the unknown bytes. -/
theorem messageRecords_succ (rt : Runtime V) (levels : Nat) (instance_ : V) (descId : DescId) :
    messageRecords rt (levels + 1) instance_ descId
      = fieldsRecords rt (plainPayload rt levels) (rt.descriptor descId) instance_
          (rt.descriptor descId).inner.fields
          ([], List.replicate (rt.descriptor descId).inner.oneofs.length 0) >>= fun st =>
        checkOneofs (rt.descriptor descId).inner.oneofs st.2 >>= fun _ =>
          unknownOf rt instance_ >>= fun unknown => .ok (st.1, unknown) := rfl

/-! ## Encoding in place appends the records -/

/-- A region written in place is one record with the region's bytes. -/
theorem finishLenPrefix_record (buf : Bytes) (number : UInt32) (data : Bytes) :
    finishLenPrefix ((beginLenPrefix (writeTag buf number .len)).1 ++ data)
        (beginLenPrefix (writeTag buf number .len)).2
      = buf ++ (⟨number, .len data⟩ : Record).bytes := by
  have hpos : (beginLenPrefix (writeTag buf number .len)).2 = (writeTag buf number .len).length := by
    simp [beginLenPrefix]
  rw [hpos]
  show finishLenPrefix (writeTag buf number .len ++ [0] ++ data) _ = _
  rw [finishLenPrefix_eq, writeTag_eq, Record.bytes, Payload.bytes, lenBytes]
  simp only [Payload.wire, List.append_assoc]

/-- A Timestamp/Duration submessage is one record. -/
theorem writePartsField_eq (buf : Bytes) (number : UInt32) (secs : Int64) (nanos : Int32) :
    writePartsField buf number secs nanos
      = buf ++ (⟨number, .len (recordsBytes (partsRecords secs nanos))⟩ : Record).bytes := by
  show finishLenPrefix (encodeParts (beginLenPrefix (writeTag buf number .len)).1 secs nanos) _ = _
  rw [encodeParts_eq]
  exact finishLenPrefix_record buf number _

section Fields

variable {rt : Runtime V} {nested : NestedEncoder V} {plain : NestedPayload V}

/-- A nested message is one record. -/
theorem writeNestedField_eq
    (hnested : ∀ value linked buf, nested value linked buf
      = plain value linked >>= fun data => .ok (buf ++ data))
    (buf : Bytes) (number : UInt32) (value : V) (linked : Option LinkedRef) :
    writeNestedField nested buf number value linked
      = plain value linked >>= fun data => .ok (buf ++ (⟨number, .len data⟩ : Record).bytes) := by
  show (nested value linked (beginLenPrefix (writeTag buf number .len)).1 >>= fun out =>
    .ok (finishLenPrefix out (beginLenPrefix (writeTag buf number .len)).2)) = _
  rw [hnested, bind_assoc]
  simp only [ok_bind, finishLenPrefix_record]

/-- **A single value is one record.** -/
theorem encodeSingle_eq (rt : Runtime V)
    (hnested : ∀ value linked buf, nested value linked buf
      = plain value linked >>= fun data => .ok (buf ++ data))
    (buf : Bytes) (number : UInt32) (kind : FieldKind) (value : V) (linked : Option LinkedRef) :
    encodeSingle rt nested buf number kind value linked
      = valuePayload rt plain kind value linked >>= fun payload =>
          .ok (buf ++ (⟨number, payload⟩ : Record).bytes) := by
  cases kind with
  | scalar scalar =>
      simp only [encodeSingle, valuePayload, encodeScalarField_eq, Bool.false_and]
      simp
  | enum =>
      simp only [encodeSingle, valuePayload, encodeEnum_eq, enumPayload, bind_assoc, ok_bind]
      refine congrArg _ (funext fun v => ?_)
      exact congrArg Except.ok (writeTag_append buf number (.varint _))
  | message =>
      simp only [encodeSingle, valuePayload, writeNestedField_eq hnested, bind_assoc, ok_bind]
  | timestamp =>
      simp only [encodeSingle, valuePayload, bind_assoc, writePartsField_eq, ok_bind]
  | duration =>
      simp only [encodeSingle, valuePayload, bind_assoc, writePartsField_eq, ok_bind]
  | map key value => rfl

/-- **A packed list is one record**, or nothing when no byte was written. -/
theorem encodePacked_eq {element : Bytes → PyShape V → PyResult Bytes}
    {payload : PyShape V → PyResult Payload}
    (helement : ∀ buf value, element buf value
      = payload value >>= fun p => .ok (buf ++ p.bytes))
    (buf : Bytes) (number : UInt32) (items : List V) :
    encodePacked rt buf number items element
      = (items.mapM fun item => payload (rt.view item)) >>= fun payloads =>
          .ok (buf ++ recordsBytes (packedRecords number payloads)) := by
  have hpos : (beginLenPrefix (writeTag buf number .len)).2 = (writeTag buf number .len).length := by
    simp [beginLenPrefix]
  show (items.foldlM (fun buf item => element buf (rt.view item))
      (beginLenPrefix (writeTag buf number .len)).1 >>= fun out =>
    if out.length = (beginLenPrefix (writeTag buf number .len)).2 + 1 then .ok (out.take buf.length)
    else .ok (finishLenPrefix out (beginLenPrefix (writeTag buf number .len)).2)) = _
  rw [foldlM_append Payload.bytes (fun b v => helement b (rt.view v)), bind_assoc]
  refine congrArg _ (funext fun payloads => ?_)
  rw [ok_bind]
  unfold packedRecords
  dsimp only
  generalize payloads.flatMap Payload.bytes = data
  have hlen : ((beginLenPrefix (writeTag buf number .len)).1 ++ data).length
      = (beginLenPrefix (writeTag buf number .len)).2 + 1 + data.length := by
    rw [hpos]
    simp only [beginLenPrefix, List.length_append, List.length_singleton]
  by_cases hdata : data = []
  · -- nothing was written: the tag and the slot are rolled back
    have htake : ((beginLenPrefix (writeTag buf number .len)).1 ++ data).take buf.length = buf := by
      rw [hdata, List.append_nil]
      show (writeTag buf number .len ++ [0]).take buf.length = buf
      rw [writeTag_eq, List.append_assoc, List.take_left]
    rw [if_pos (by rw [hlen, hdata]; rfl), htake, hdata]
    simp
  · rw [if_neg (by rw [hlen]; have := List.length_pos_iff.mpr hdata; omega), finishLenPrefix_record,
      if_neg (by simpa using hdata)]
    simp

/-- Elements written with a tag each are a record each. -/
theorem foldlM_records {element : Bytes → V → PyResult Bytes} {payload : V → PyResult Payload}
    (number : UInt32)
    (helement : ∀ buf value, element buf value = payload value >>= fun p =>
      .ok (buf ++ (⟨number, p⟩ : Record).bytes))
    (buf : Bytes) (items : List V) :
    items.foldlM element buf
      = items.mapM payload >>= fun payloads =>
          .ok (buf ++ recordsBytes (payloads.map fun p => ⟨number, p⟩)) := by
  rw [foldlM_append (fun p => (⟨number, p⟩ : Record).bytes) helement]
  simp only [recordsBytes, List.flatMap_map]

/-- A tagged element of a repeated string or bytes field is a record. -/
theorem encodeScalar_tagged (buf : Bytes) (number : UInt32) (scalar : ScalarType)
    (value : PyShape V) :
    encodeScalar (writeTag buf number scalar.wireType) scalar value
      = scalarPayload scalar value >>= fun p => .ok (buf ++ (⟨number, p⟩ : Record).bytes) := by
  rw [encodeScalar_eq]
  cases h : scalarPayload scalar value with
  | error e => rfl
  | ok p => rw [ok_bind, ok_bind, ← wire_of_scalarPayload h, writeTag_append]

/-- **A repeated field is the bytes of its records.** -/
theorem encodeRepeated_eq (rt : Runtime V)
    (hnested : ∀ value linked buf, nested value linked buf
      = plain value linked >>= fun data => .ok (buf ++ data))
    (buf : Bytes) (number : UInt32) (kind : FieldKind) (value : V) (linked : Option LinkedRef) :
    encodeRepeated rt nested buf number kind value linked
      = repeatedRecords rt plain number kind value linked >>= fun recs =>
          .ok (buf ++ recordsBytes recs) := by
  unfold encodeRepeated repeatedRecords
  -- a `str` or `bytes` is refused, though it could be iterated
  by_cases htext : (rt.view value).isStrOrBytes = true
  · rw [if_pos htext, if_pos htext]
    rfl
  · rw [if_neg htext, if_neg htext]
    cases kind with
    | scalar scalar =>
        dsimp only
        by_cases hpack : scalar.isPackable = true
        · rw [if_pos hpack, bind_assoc]
          refine congrArg _ (funext fun items => ?_)
          rw [encodePacked_eq (fun b v => encodeScalar_eq b scalar v), bind_assoc]
          simp only [FieldKind.isPacked, hpack, if_true, ok_bind, valuePayload]
        · rw [if_neg hpack, bind_assoc]
          refine congrArg _ (funext fun items => ?_)
          rw [foldlM_records number fun b v => encodeScalar_tagged b number scalar (rt.view v),
            bind_assoc]
          simp [FieldKind.isPacked, hpack, valuePayload]
    | enum =>
        dsimp only
        rw [bind_assoc]
        refine congrArg _ (funext fun items => ?_)
        rw [encodePacked_eq encodeEnum_eq, bind_assoc]
        simp only [FieldKind.isPacked, if_true, ok_bind, valuePayload]
    | message =>
        dsimp only
        rw [bind_assoc]
        refine congrArg _ (funext fun items => ?_)
        refine (foldlM_records number (fun b v =>
          encodeSingle_eq rt hnested b number .message v linked) buf items).trans ?_
        simp [FieldKind.isPacked]
    | timestamp =>
        dsimp only
        rw [bind_assoc]
        refine congrArg _ (funext fun items => ?_)
        refine (foldlM_records number (fun b v =>
          encodeSingle_eq rt hnested b number .timestamp v linked) buf items).trans ?_
        simp [FieldKind.isPacked]
    | duration =>
        dsimp only
        rw [bind_assoc]
        refine congrArg _ (funext fun items => ?_)
        refine (foldlM_records number (fun b v =>
          encodeSingle_eq rt hnested b number .duration v linked) buf items).trans ?_
        simp [FieldKind.isPacked]
    | map key value => rfl

/-- The value of a map entry is the record with number 2. -/
theorem encodeMapValue_eq
    (hnested : ∀ value linked buf, nested value linked buf
      = plain value linked >>= fun data => .ok (buf ++ data))
    (buf : Bytes) (valueKind : MapValue) (value : V) (linked : Option LinkedRef) :
    encodeMapValue rt nested buf valueKind value linked
      = valuePayload rt plain valueKind.kind value linked >>= fun payload =>
          .ok (buf ++ (⟨2, payload⟩ : Record).bytes) := by
  have hsingle := encodeSingle_eq rt hnested buf 2 valueKind.kind value linked
  cases valueKind with
  | scalar scalar => exact encodeScalar_tagged buf 2 scalar (rt.view value)
  | enum => exact hsingle
  | message => exact hsingle
  | timestamp => exact hsingle
  | duration => exact hsingle

/-- **A map field is the bytes of its records**, an entry each. -/
theorem encodeMap_eq
    (hnested : ∀ value linked buf, nested value linked buf
      = plain value linked >>= fun data => .ok (buf ++ data))
    (buf : Bytes) (number : UInt32) (key : ScalarType) (valueKind : MapValue) (value : V)
    (linked : Option LinkedRef) :
    encodeMap rt nested buf number key valueKind value linked
      = mapRecords rt plain number key valueKind value linked >>= fun recs =>
          .ok (buf ++ recordsBytes recs) := by
  unfold encodeMap mapRecords
  cases rt.view value with
  | dict items =>
      dsimp only
      rw [@foldlM_records _ _ (entryPayload rt plain key valueKind linked) number, bind_assoc]
      · simp only [ok_bind]
      · intro buf entry
        show (encodeScalar (writeTag (beginLenPrefix (writeTag buf number .len)).1 1 key.wireType) key
            (rt.view entry.1) >>= fun out => encodeMapValue rt nested out valueKind entry.2 linked
              >>= fun out => .ok (finishLenPrefix out (beginLenPrefix (writeTag buf number .len)).2))
          = _
        rw [encodeScalar_tagged]
        simp only [entryPayload, bind_assoc, ok_bind, encodeMapValue_eq hnested]
        refine congrArg _ (funext fun kp => congrArg _ (funext fun vp => ?_))
        have hrec := finishLenPrefix_record buf number (recordsBytes [⟨1, kp⟩, ⟨2, vp⟩])
        simp only [recordsBytes_cons, recordsBytes_nil, List.append_nil] at hrec ⊢
        rw [List.append_assoc, hrec]
  | _ => rfl

/-- **One round of the field loop appends the records of the field.** -/
theorem encodeField_eq
    (hnested : ∀ value linked buf, nested value linked buf
      = plain value linked >>= fun data => .ok (buf ++ data))
    (desc : Descriptor) (instance_ : V) (buf : Bytes) (counts : List Nat)
    (field : FieldDescriptor) :
    encodeField rt nested desc instance_ (buf, counts) field
      = fieldRecords rt plain desc instance_ counts field >>= fun (recs, counts) =>
          .ok (buf ++ recordsBytes recs, counts) := by
  unfold encodeField fieldRecords
  dsimp only
  rw [bind_assoc]
  refine congrArg _ (funext fun value => ?_)
  -- the kind and the label pick the branch on both sides
  obtain ⟨number, name, kind, label, typeName, oneofIndex⟩ := field
  dsimp only
  have hsingle := encodeSingle_eq rt hnested buf number kind value (desc.ref number)
  have hrepeated := encodeRepeated_eq rt hnested buf number kind value (desc.ref number)
  cases kind with
  | map key valKind => simp only [encodeMap_eq hnested, bind_assoc, ok_bind]
  | scalar scalar =>
      cases label with
      | repeated => simp only [hrepeated, bind_assoc, ok_bind]
      | optional => cases (rt.view value).isNone <;> simp [hsingle]
      | single =>
          simp [encodeScalarField_eq, valuePayload, FieldKind.isMessageLike]
  | enum =>
      cases label with
      | repeated => simp only [hrepeated, bind_assoc, ok_bind]
      | optional => cases (rt.view value).isNone <;> simp [hsingle]
      | single =>
          simp only [valuePayload, enumPayload, bind_assoc, ok_bind, FieldKind.isMessageLike]
          refine congrArg _ (funext fun v => ?_)
          have hrec := writeTag_append buf number (.varint v.toInt64.toUInt64)
          have hzero : (Payload.varint v.toInt64.toUInt64).isDefault = decide (v = 0) := by
            simp only [Payload.isDefault, toUInt64_eq_zero, toInt64_eq_zero]
          rw [hzero]
          by_cases hv : v = 0
          · simp [hv]
          · simp [hv, ← hrec, writeVarint_eq, Payload.wire, Payload.bytes]
  | message =>
      cases label with
      | repeated => simp only [hrepeated, bind_assoc, ok_bind]
      | optional => cases (rt.view value).isNone <;> simp [hsingle]
      | single => simp [hsingle, FieldKind.isMessageLike]
  | timestamp =>
      cases label with
      | repeated => simp only [hrepeated, bind_assoc, ok_bind]
      | optional => cases (rt.view value).isNone <;> simp [hsingle]
      | single => simp [hsingle, FieldKind.isMessageLike]
  | duration =>
      cases label with
      | repeated => simp only [hrepeated, bind_assoc, ok_bind]
      | optional => cases (rt.view value).isNone <;> simp [hsingle]
      | single => simp [hsingle, FieldKind.isMessageLike]

/-- The field loop appends the records of the fields. -/
theorem encodeFields_eq (rt : Runtime V)
    (hnested : ∀ value linked buf, nested value linked buf
      = plain value linked >>= fun data => .ok (buf ++ data))
    (desc : Descriptor) (instance_ : V) (buf : Bytes) (fields : List FieldDescriptor) :
    ∀ (recs : List Record) (counts : List Nat),
      fields.foldlM (encodeField rt nested desc instance_) (buf ++ recordsBytes recs, counts)
        = fieldsRecords rt plain desc instance_ fields (recs, counts) >>= fun (recs, counts) =>
            .ok (buf ++ recordsBytes recs, counts) := by
  induction fields with
  | nil => intro recs counts; rfl
  | cons field fields ih =>
      intro recs counts
      unfold fieldsRecords at ih ⊢
      rw [List.foldlM_cons, List.foldlM_cons, encodeField_eq hnested, bind_assoc, bind_assoc]
      cases fieldRecords rt plain desc instance_ counts field with
      | error e => rfl
      | ok r =>
          simp only [ok_bind]
          rw [List.append_assoc, ← recordsBytes_append]
          exact ih (recs ++ r.1) r.2

/-- Re-emitting the unknown fields appends them. -/
theorem encodeUnknown_eq (instance_ : V) (buf : Bytes) :
    encodeUnknown rt instance_ buf
      = unknownOf rt instance_ >>= fun unknown => .ok (buf ++ unknown) := by
  unfold encodeUnknown unknownOf
  cases rt.getattr instance_ unknownSlot with
  | error e => simp
  | ok raw => rfl

end Fields

/-- **Encoding in place equals building every submessage apart**: the output is the buffer followed
by the bytes of the records and the unknown bytes, and the errors are the same. -/
theorem encodeMessage_eq (rt : Runtime V) (levels : Nat) :
    ∀ (instance_ : V) (descId : DescId) (buf : Bytes),
      encodeMessage rt levels instance_ descId buf
        = messageRecords rt levels instance_ descId >>= fun (recs, unknown) =>
            .ok (buf ++ recordsBytes recs ++ unknown) := by
  induction levels with
  | zero => intro instance_ descId buf; rfl
  | succ levels ih =>
      intro instance_ descId buf
      unfold encodeMessage messageRecords
      dsimp only
      have hnested : ∀ value linked buf,
          (do
            let nestedDesc ← nestedDescriptor rt value linked
            encodeMessage rt levels value nestedDesc buf : PyResult Bytes)
            = plainPayload rt levels value linked >>= fun data => .ok (buf ++ data) := by
        intro value linked buf
        unfold plainPayload
        rw [bind_assoc]
        refine congrArg _ (funext fun nestedDesc => ?_)
        rw [ih, bind_assoc]
        simp only [ok_bind, List.append_assoc]
      have hfields := encodeFields_eq rt hnested (rt.descriptor descId) instance_ buf
        (rt.descriptor descId).inner.fields []
        (List.replicate (rt.descriptor descId).inner.oneofs.length 0)
      rw [recordsBytes_nil, List.append_nil] at hfields
      rw [hfields]
      simp only [bind_assoc, ok_bind, encodeUnknown_eq]
      rfl

end FastProto
