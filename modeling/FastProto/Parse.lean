import FastProto.Descriptor
import FastProto.Record
import FastProto.Lib.Dotted

/-! # The descriptor parser (`src/parse/mod.rs`)

`parseMessage` turns the bytes of a `DescriptorProto` into a `MessageDescriptor`: one loop collects
the raw fields, the map-entry table and the oneof names, then `interpretField` classifies each raw
field. Every loop reads a tag and then the payload its branch expects. -/

namespace FastProto

open Lib Lib.Cursor

/-- Error while parsing a descriptor. -/
inductive ParseError where
  | wire (error : WireError)
  | unsupportedType (code : Int32)
  | missingType
  | invalidUtf8
  deriving DecidableEq, Repr

/-- A step of the parser on a reader. -/
abbrev ParseM := Scan UInt8 ParseError

/-- A step of the wire reader inside the parser (`?` on a `WireError`). -/
def ofWire {α : Type} (f : ReadM α) : ParseM α := mapErr ParseError.wire f

/-- `std::str::from_utf8`. -/
def fromUtf8 (bytes : Bytes) : Option String := String.fromUTF8? ⟨bytes.toArray⟩

/-- Check a chunk for UTF-8. -/
def stringOf (bytes : Bytes) : Except ParseError String :=
  match fromUtf8 bytes with
  | some s => .ok s
  | none => .error .invalidUtf8

/-- Read a length-delimited string. -/
def readString : ParseM String := do
  let bytes ← ofWire Reader.readLenDelimited
  StateT.lift (stringOf bytes)

/-! ## Field types -/

/-- `FieldDescriptorProto.Label`: repeated. -/
def labelRepeated : Int64 := 3

/-- Well-known types surfaced as native Python objects. -/
def timestampFullName : String := ".google.protobuf.Timestamp"

@[inherit_doc timestampFullName]
def durationFullName : String := ".google.protobuf.Duration"

/-- `FieldDescriptorProto.Type`. -/
def typeGroup : Int64 := 10

@[inherit_doc typeGroup]
def typeMessage : Int64 := 11

@[inherit_doc typeGroup]
def typeEnum : Int64 := 14

/-- The scalar type with a `FieldDescriptorProto.Type` code. -/
def scalarFromProtoType (typeCode : Int64) : Option ScalarType :=
  match typeCode.toInt with
  | 1 => some .double
  | 2 => some .float
  | 3 => some .int64
  | 4 => some .uint64
  | 5 => some .int32
  | 6 => some .fixed64
  | 7 => some .fixed32
  | 8 => some .bool
  | 9 => some .string
  | 12 => some .bytes
  | 13 => some .uint32
  | 15 => some .sfixed32
  | 16 => some .sfixed64
  | 17 => some .sint32
  | 18 => some .sint64
  | _ => none

/-- `.pkg.Outer.Inner` -> `Inner`. -/
def shortName (full : String) : String := (segments full).getLastD full

/-- `full.rsplit('.').nth(1)`: the segment before the last. -/
def parentSegment (full : String) : Option String := (segments full).reverse[1]?

/-- `.pkg.Outer.Inner` -> `pkg.Outer.Inner`. -/
def fullName (full : String) : String :=
  match full.toList with
  | '.' :: rest => String.ofList rest
  | _ => full

/-! ## Raw fields -/

/-- Raw fields collected from a `FieldDescriptorProto` before interpretation. -/
structure RawField where
  name : String := ""
  number : UInt32 := 0
  label : Int64 := 0
  typeCode : Option Int64 := none
  typeName : Option String := none
  oneofIndex : Option UInt32 := none
  proto3Optional : Bool := false
  deriving DecidableEq, Repr

/-- The loop body of `parse_raw_field`. -/
def rawFieldBody (raw : RawField) : ParseM RawField := do
  let (number, wire) ← ofWire Reader.readTag
  match number.toNat, wire with
  | 1, .len => do
      let name ← readString
      pure { raw with name }
  | 3, .varint => do
      let v ← ofWire Reader.readVarint
      pure { raw with number := v.toUInt32 }
  | 4, .varint => do
      let v ← ofWire Reader.readVarint
      pure { raw with label := v.toInt64 }
  | 5, .varint => do
      let v ← ofWire Reader.readVarint
      pure { raw with typeCode := some v.toInt64 }
  | 6, .len => do
      let typeName ← readString
      pure { raw with typeName := some typeName }
  | 9, .varint => do
      let v ← ofWire Reader.readVarint
      pure { raw with oneofIndex := some v.toUInt32 }
  | 17, .varint => do
      let v ← ofWire Reader.readVarint
      pure { raw with proto3Optional := decide (v ≠ 0) }
  | _, w => do
      ofWire (Reader.skip w)
      pure raw

/-- Collect the fields of a `FieldDescriptorProto`. -/
def parseRawField (bytes : Bytes) : Except ParseError RawField :=
  drainAll rawFieldBody {} (Reader.new bytes)

/-! ## Map entries -/

/-- A nested `*Entry` type generated for a `map<K, V>` field. -/
structure MapEntry where
  key : ScalarType
  value : MapValue
  /-- Full type name of the value when it is a message/enum. -/
  valueTypeName : Option String
  deriving DecidableEq, Repr

/-- The local variables of `parse_nested_map_entry`. -/
structure NestedState where
  name : String := ""
  isMapEntry : Bool := false
  key : Option ScalarType := none
  value : Option MapValue := none
  valueTypeName : Option String := none
  deriving DecidableEq, Repr

/-- The value type announced by the `value` field of a map entry. -/
def mapValueOf (typeCode : Int64) (typeName : Option String) : Except ParseError MapValue :=
  if typeCode = typeEnum then .ok .enum
  else if typeCode = typeMessage then
    if typeName = some timestampFullName then .ok .timestamp
    else if typeName = some durationFullName then .ok .duration
    else .ok .message
  else
    match scalarFromProtoType typeCode with
    | some scalar => .ok (.scalar scalar)
    | none => .error (.unsupportedType typeCode.toInt32)

/-- Take in a field of the entry: key (number 1) or value (number 2). -/
def NestedState.addField (st : NestedState) (raw : RawField) : Except ParseError NestedState :=
  match raw.typeCode with
  | none => .error .missingType
  | some typeCode =>
      if raw.number = 1 then .ok { st with key := scalarFromProtoType typeCode }
      else if raw.number = 2 then do
        let value ← mapValueOf typeCode raw.typeName
        let valueTypeName :=
          match value with
          | .timestamp | .duration => none
          | _ => raw.typeName.map fullName
        .ok { st with value := some value, valueTypeName }
      else .ok st

/-- The loop body that looks for `map_entry` (field 7) in `MessageOptions`. -/
def optionsBody (isMapEntry : Bool) : ParseM Bool := do
  let (number, wire) ← ofWire Reader.readTag
  match number.toNat, wire with
  | 7, .varint => do
      let v ← ofWire Reader.readVarint
      pure (decide (v ≠ 0))
  | _, w => do
      ofWire (Reader.skip w)
      pure isMapEntry

/-- The loop body of `parse_nested_map_entry`. -/
def nestedBody (st : NestedState) : ParseM NestedState := do
  let (number, wire) ← ofWire Reader.readTag
  match number.toNat, wire with
  | 1, .len => do
      let name ← readString
      pure { st with name }
  | 2, .len => do
      let chunk ← ofWire Reader.readLenDelimited
      let raw ← StateT.lift (parseRawField chunk)
      StateT.lift (st.addField raw)
  | 7, .len => do
      let opts ← ofWire Reader.readLenDelimited
      let isMapEntry ← StateT.lift (drainAll optionsBody st.isMapEntry (Reader.new opts))
      pure { st with isMapEntry }
  | _, w => do
      ofWire (Reader.skip w)
      pure st

/-- The map entry a nested type turned out to be, under its name. -/
def NestedState.entry (st : NestedState) : Option (String × MapEntry) :=
  if st.isMapEntry then
    some (st.name,
      { key := st.key.getD .string
        value := st.value.getD (.scalar .string)
        valueTypeName := st.valueTypeName })
  else none

/-- Parse a nested `DescriptorProto`, returning a map entry if it is one. -/
def parseNestedMapEntry (bytes : Bytes) : Except ParseError (Option (String × MapEntry)) := do
  let st ← drainAll nestedBody {} (Reader.new bytes)
  .ok st.entry

/-! ## Fields -/

/-- The map-entry table; an entry inserted later stands in front. -/
abbrev MapEntries := List (String × MapEntry)

/-- The map entry a repeated message field refers to, if it is one: the entry is nested in this
message, so the type name ends in `.<msg_name>.<EntryName>`. -/
def findMapEntry (raw : RawField) (mapEntries : MapEntries) (msgName : String) :
    Option MapEntry :=
  match raw.typeName with
  | none => none
  | some full =>
      if parentSegment full = some msgName then mapEntries.lookup (shortName full) else none

/-- The kind of a field that is not a map, and the type name it keeps. -/
def kindOf (typeCode : Int64) (typeName : Option String) :
    Except ParseError (FieldKind × Option String) :=
  if typeCode = typeEnum then .ok (.enum, typeName.map fullName)
  else if typeCode = typeMessage then
    if typeName = some timestampFullName then .ok (.timestamp, none)
    else if typeName = some durationFullName then .ok (.duration, none)
    else .ok (.message, typeName.map fullName)
  else if typeCode = typeGroup then .error (.unsupportedType typeGroup.toInt32)
  else
    match scalarFromProtoType typeCode with
    | some scalar => .ok (.scalar scalar, none)
    | none => .error (.unsupportedType typeCode.toInt32)

/-- Whether values of this kind are messages on the wire, so that their fields track presence. -/
def FieldKind.isMessageLike : FieldKind → Bool
  | .message | .timestamp | .duration => true
  | _ => false

/-- Turn a raw field plus the message's map-entry table into a `FieldDescriptor`. -/
def interpretField (raw : RawField) (mapEntries : MapEntries) (msgName : String) :
    Except ParseError FieldDescriptor :=
  match raw.typeCode with
  | none => .error .missingType
  | some typeCode =>
      let isRepeated := decide (raw.label = labelRepeated)
      let entry :=
        if isRepeated && decide (typeCode = typeMessage) then findMapEntry raw mapEntries msgName
        else none
      match entry with
      | some entry =>
          .ok { number := raw.number
                name := raw.name
                kind := .map entry.key entry.value
                label := .single
                typeName := entry.valueTypeName
                oneofIndex := none }
      | none => do
          let (kind, typeName) ← kindOf typeCode raw.typeName
          -- a real oneof member has an index and is not a proto3 `optional`
          let realOneof := if raw.proto3Optional then none else raw.oneofIndex
          let label :=
            if isRepeated then Label.repeated
            else if raw.proto3Optional || kind.isMessageLike || realOneof.isSome then .optional
            else .single
          .ok { number := raw.number, name := raw.name, kind, label, typeName,
                oneofIndex := realOneof }

/-! ## Messages -/

/-- The local variables of `parse_message`. -/
structure ParseState where
  name : String := ""
  rawFields : List RawField := []
  mapEntries : MapEntries := []
  oneofs : List String := []
  deriving DecidableEq, Repr

/-- The loop body that looks for the name of a `OneofDescriptorProto`. -/
def oneofBody (oneofName : String) : ParseM String := do
  let (number, wire) ← ofWire Reader.readTag
  match number.toNat, wire with
  | 1, .len => readString
  | _, w => do
      ofWire (Reader.skip w)
      pure oneofName

/-- The loop body of `parse_message`. -/
def messageBody (st : ParseState) : ParseM ParseState := do
  let (number, wire) ← ofWire Reader.readTag
  match number.toNat, wire with
  | 1, .len => do
      let name ← readString
      pure { st with name }
  | 2, .len => do
      let chunk ← ofWire Reader.readLenDelimited
      let raw ← StateT.lift (parseRawField chunk)
      pure { st with rawFields := st.rawFields ++ [raw] }
  | 3, .len => do
      let nested ← ofWire Reader.readLenDelimited
      let entry ← StateT.lift (parseNestedMapEntry nested)
      pure { st with mapEntries := entry.toList ++ st.mapEntries }
  | 8, .len => do
      let decl ← ofWire Reader.readLenDelimited
      let oneofName ← StateT.lift (drainAll oneofBody "" (Reader.new decl))
      pure { st with oneofs := st.oneofs ++ [oneofName] }
  | _, w => do
      ofWire (Reader.skip w)
      pure st

/-- Drop a `oneof_index` that points past the declared groups. -/
def clampOneof (oneofs : List String) (field : FieldDescriptor) : FieldDescriptor :=
  match field.oneofIndex with
  | some idx => if oneofs.length ≤ idx.toNat then { field with oneofIndex := none } else field
  | none => field

/-- What `parse_message` makes of the collected parts. -/
def ParseState.finish (st : ParseState) : Except ParseError MessageDescriptor := do
  let fields ← st.rawFields.mapM fun raw => interpretField raw st.mapEntries st.name
  .ok { name := st.name, fields := fields.map (clampOneof st.oneofs), oneofs := st.oneofs }

/-- Parse a `DescriptorProto` into a `MessageDescriptor`. -/
def parseMessage (bytes : Bytes) : Except ParseError MessageDescriptor := do
  let st ← drainAll messageBody {} (Reader.new bytes)
  st.finish

/-! ## The loops as folds over records -/

/-- The step of `parse_raw_field` on one record. -/
def rawFieldStep (raw : RawField) (rec : Record) : Except ParseError RawField :=
  match rec.number.toNat, rec.payload with
  | 1, .len data => do
      let name ← stringOf data
      .ok { raw with name }
  | 3, .varint v => .ok { raw with number := v.toUInt32 }
  | 4, .varint v => .ok { raw with label := v.toInt64 }
  | 5, .varint v => .ok { raw with typeCode := some v.toInt64 }
  | 6, .len data => do
      let typeName ← stringOf data
      .ok { raw with typeName := some typeName }
  | 9, .varint v => .ok { raw with oneofIndex := some v.toUInt32 }
  | 17, .varint v => .ok { raw with proto3Optional := decide (v ≠ 0) }
  | _, _ => .ok raw

/-- The step of the loop over `MessageOptions` on one record. -/
def optionsStep (isMapEntry : Bool) (rec : Record) : Except ParseError Bool :=
  match rec.number.toNat, rec.payload with
  | 7, .varint v => .ok (decide (v ≠ 0))
  | _, _ => .ok isMapEntry

/-- The step of `parse_nested_map_entry` on one record. -/
def nestedStep (st : NestedState) (rec : Record) : Except ParseError NestedState :=
  match rec.number.toNat, rec.payload with
  | 1, .len data => do
      let name ← stringOf data
      .ok { st with name }
  | 2, .len data => do
      let raw ← parseRawField data
      st.addField raw
  | 7, .len data => do
      let isMapEntry ← drainAll optionsBody st.isMapEntry (Reader.new data)
      .ok { st with isMapEntry }
  | _, _ => .ok st

/-- The step of the loop over a `OneofDescriptorProto` on one record. -/
def oneofStep (oneofName : String) (rec : Record) : Except ParseError String :=
  match rec.number.toNat, rec.payload with
  | 1, .len data => stringOf data
  | _, _ => .ok oneofName

/-- The step of `parse_message` on one record. -/
def messageStep (st : ParseState) (rec : Record) : Except ParseError ParseState :=
  match rec.number.toNat, rec.payload with
  | 1, .len data => do
      let name ← stringOf data
      .ok { st with name }
  | 2, .len data => do
      let raw ← parseRawField data
      .ok { st with rawFields := st.rawFields ++ [raw] }
  | 3, .len data => do
      let entry ← parseNestedMapEntry data
      .ok { st with mapEntries := entry.toList ++ st.mapEntries }
  | 8, .len data => do
      let oneofName ← drainAll oneofBody "" (Reader.new data)
      .ok { st with oneofs := st.oneofs ++ [oneofName] }
  | _, _ => .ok st

/-- The loop of `parse_raw_field` works record by record. -/
theorem rawField_body : Body Reader.readRecord .wire rawFieldStep rawFieldBody := by
  refine body_of_branches (fun _ => rfl) fun raw number wire => ?_
  unfold rawFieldStep readString ofWire
  dsimp only
  generalize number.toNat = k
  cases wire with
  | varint => rw [payload_varint]; split <;> simp_all [Reader.skip]
  | i64 => rw [payload_i64]; split <;> simp_all [Reader.skip]
  | len => rw [payload_len]; split <;> simp_all [Reader.skip]
  | i32 => rw [payload_i32]; split <;> simp_all [Reader.skip]

/-- The loop over `MessageOptions` works record by record. -/
theorem options_body : Body Reader.readRecord .wire optionsStep optionsBody := by
  refine body_of_branches (fun _ => rfl) fun isMapEntry number wire => ?_
  unfold optionsStep ofWire
  dsimp only
  generalize number.toNat = k
  cases wire with
  | varint => rw [payload_varint]; split <;> simp_all [Reader.skip]
  | i64 => rw [payload_i64]; split <;> simp_all [Reader.skip]
  | len => rw [payload_len]; split <;> simp_all [Reader.skip]
  | i32 => rw [payload_i32]; split <;> simp_all [Reader.skip]

/-- The loop of `parse_nested_map_entry` works record by record. -/
theorem nested_body : Body Reader.readRecord .wire nestedStep nestedBody := by
  refine body_of_branches (fun _ => rfl) fun st number wire => ?_
  unfold nestedStep readString ofWire
  dsimp only
  generalize number.toNat = k
  cases wire with
  | varint => rw [payload_varint]; split <;> simp_all [Reader.skip]
  | i64 => rw [payload_i64]; split <;> simp_all [Reader.skip]
  | len => rw [payload_len]; split <;> simp_all [Reader.skip]
  | i32 => rw [payload_i32]; split <;> simp_all [Reader.skip]

/-- The loop over a `OneofDescriptorProto` works record by record. -/
theorem oneof_body : Body Reader.readRecord .wire oneofStep oneofBody := by
  refine body_of_branches (fun _ => rfl) fun oneofName number wire => ?_
  unfold oneofStep readString ofWire
  dsimp only
  generalize number.toNat = k
  cases wire with
  | varint => rw [payload_varint]; split <;> simp_all [Reader.skip]
  | i64 => rw [payload_i64]; split <;> simp_all [Reader.skip]
  | len => rw [payload_len]; split <;> simp_all [Reader.skip]
  | i32 => rw [payload_i32]; split <;> simp_all [Reader.skip]

/-- The loop of `parse_message` works record by record. -/
theorem message_body : Body Reader.readRecord .wire messageStep messageBody := by
  refine body_of_branches (fun _ => rfl) fun st number wire => ?_
  unfold messageStep readString ofWire
  dsimp only
  generalize number.toNat = k
  cases wire with
  | varint => rw [payload_varint]; split <;> simp_all [Reader.skip]
  | i64 => rw [payload_i64]; split <;> simp_all [Reader.skip]
  | len => rw [payload_len]; split <;> simp_all [Reader.skip]
  | i32 => rw [payload_i32]; split <;> simp_all [Reader.skip]

/-! ## What the parser guarantees of every field -/

/-- **The shape of a parsed field**: a map is `Single` and in no oneof, message-like fields and
oneof members have presence or are repeated, and a oneof index points at a declared group. -/
structure FieldDescriptor.Shaped (field : FieldDescriptor) (oneofs : Nat) : Prop where
  map_single : ∀ key value, field.kind = .map key value →
    field.label = .single ∧ field.oneofIndex = none
  message_label : field.kind.isMessageLike = true → field.label ≠ .single
  oneof_label : field.oneofIndex.isSome = true → field.label ≠ .single
  oneof_lt : ∀ idx, field.oneofIndex = some idx → idx.toNat < oneofs

/-- No kind but the one of a map entry is a map. -/
theorem kindOf_ne_map {typeCode : Int64} {typeName typeName' : Option String} {kind : FieldKind}
    (h : kindOf typeCode typeName = .ok (kind, typeName')) (key : ScalarType) (value : MapValue) :
    kind ≠ .map key value := by
  unfold kindOf at h
  rintro rfl
  split at h
  · cases h
  · split at h
    · split at h
      · cases h
      · split at h <;> cases h
    · split at h
      · cases h
      · split at h <;> cases h

/-- A field as `interpret_field` returns it, its oneof index not checked against the groups yet,
keeps its shape once the index is. -/
theorem shaped_of_interpretField {raw : RawField} {mapEntries : MapEntries} {msgName : String}
    {field : FieldDescriptor} (h : interpretField raw mapEntries msgName = .ok field)
    (oneofs : List String) : (clampOneof oneofs field).Shaped oneofs.length := by
  have hkind : (clampOneof oneofs field).kind = field.kind := by
    unfold clampOneof
    split
    · split <;> rfl
    · rfl
  have hlabel : (clampOneof oneofs field).label = field.label := by
    unfold clampOneof
    split
    · split <;> rfl
    · rfl
  -- `clampOneof` drops an index that is out of range
  have hindex : ∀ idx, (clampOneof oneofs field).oneofIndex = some idx →
      field.oneofIndex = some idx ∧ idx.toNat < oneofs.length := by
    intro idx hidx
    unfold clampOneof at hidx
    split at hidx
    · split at hidx
      · cases hidx
      · rename_i h₁ h₂
        rw [h₁] at hidx
        cases hidx
        exact ⟨h₁, by omega⟩
    · rename_i h₁
      rw [h₁] at hidx
      cases hidx
  unfold interpretField at h
  cases hcode : raw.typeCode with
  | none => rw [hcode] at h; cases h
  | some typeCode =>
      simp only [hcode] at h
      split at h
      · cases h
        refine ⟨fun _ _ _ => ⟨hlabel, rfl⟩, fun hm => ?_, fun ho => ?_, fun idx hidx => ?_⟩
        · rw [hkind] at hm
          cases hm
        · cases ho
        · cases hidx
      · obtain ⟨⟨kind, typeName⟩, hk, h⟩ := bind_eq_ok.mp h
        cases h
        refine ⟨fun key value hm => ?_, fun hm => ?_, fun ho => ?_, fun idx hidx => (hindex idx hidx).2⟩
        · rw [hkind] at hm
          exact absurd hm (kindOf_ne_map hk key value)
        · rw [hkind] at hm
          simp only at hm
          rw [hlabel]
          simp only [hm]
          split <;> simp
        · obtain ⟨idx, hidx⟩ := Option.isSome_iff_exists.mp ho
          have hsome := (hindex idx hidx).1
          simp only at hsome
          rw [hlabel]
          simp only [hsome]
          split <;> simp

/-- **Every field of a parsed message has the shape.** -/
theorem parseMessage_shaped {bytes : Bytes} {desc : MessageDescriptor}
    (h : parseMessage bytes = .ok desc) :
    ∀ field ∈ desc.fields, field.Shaped desc.oneofs.length := by
  obtain ⟨st, -, h⟩ := bind_eq_ok.mp h
  obtain ⟨fields, hfields, h⟩ := bind_eq_ok.mp h
  cases h
  intro field hfield
  obtain ⟨f, hf, rfl⟩ := List.mem_map.mp hfield
  obtain ⟨raw, -, hraw⟩ := exists_of_mem_mapM hfields hf
  exact shaped_of_interpretField hraw st.oneofs

end FastProto
