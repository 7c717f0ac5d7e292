import FastProto.Scalar
import Mathlib.Data.List.Sort

/-! # Message schemas as `protoc` serializes them

A `DescriptorProto` with the parts the native parser and the code generator read, and the bytes it
serializes to: the parts of every message in the order of their field numbers, together with records
the parser skips. `parse_message` on these bytes collects exactly those parts. -/

namespace FastProto

open Lib Lib.Cursor

/-! ## Serialized parts -/

/-- A string as UTF-8 bytes. -/
def utf8 (s : String) : Bytes := s.toUTF8.data.toList

/-- Records of a message under other numbers than the known ones. -/
structure OtherRecords (known : List UInt32) where
  records : List Record
  skipped : ∀ rec ∈ records, ValidNumber rec.number ∧ rec.number ∉ known

/-- No other records. -/
def OtherRecords.none {known : List UInt32} : OtherRecords known := ⟨[], nofun⟩

/-- The order a message is serialized in. -/
def inNumberOrder (recs : List Record) : List Record :=
  recs.insertionSort fun a b => a.number ≤ b.number

/-- The type of a field, with the full name of a message or an enum, `.pkg.Outer.Inner`. -/
inductive ProtoType where
  | scalar (scalar : ScalarType)
  | message (typeName : String)
  | enum (typeName : String)
  deriving DecidableEq, Repr

/-- `FieldDescriptorProto.Type`. -/
def ProtoType.code : ProtoType → UInt64
  | .scalar .double => 1
  | .scalar .float => 2
  | .scalar .int64 => 3
  | .scalar .uint64 => 4
  | .scalar .int32 => 5
  | .scalar .fixed64 => 6
  | .scalar .fixed32 => 7
  | .scalar .bool => 8
  | .scalar .string => 9
  | .message _ => 11
  | .scalar .bytes => 12
  | .scalar .uint32 => 13
  | .enum _ => 14
  | .scalar .sfixed32 => 15
  | .scalar .sfixed64 => 16
  | .scalar .sint32 => 17
  | .scalar .sint64 => 18

/-- `type_name`. -/
def ProtoType.typeName : ProtoType → Option String
  | .scalar _ => none
  | .message typeName | .enum typeName => some typeName

/-- A `FieldDescriptorProto`. -/
structure FieldDescriptorProto where
  name : String
  number : UInt32
  /-- Whether the label is repeated; otherwise it is optional. -/
  repeated : Bool := false
  type : ProtoType
  oneofIndex : Option UInt32 := none
  proto3Optional : Bool := false
  /-- The JSON name, the options and so on. -/
  others : OtherRecords [1, 3, 4, 5, 6, 9, 17] := .none

/-- An `EnumValueDescriptorProto`. -/
structure EnumValueDescriptorProto where
  name : String
  number : Int32
  deriving DecidableEq, Repr

/-- An `EnumDescriptorProto`. -/
structure EnumDescriptorProto where
  name : String
  value : List EnumValueDescriptorProto
  deriving DecidableEq, Repr

/-- A `OneofDescriptorProto`. -/
structure OneofDescriptorProto where
  name : String
  others : OtherRecords [1] := .none

/-- `MessageOptions`. -/
structure MessageOptions where
  mapEntry : Bool := false
  others : OtherRecords [7] := .none

/-- A `DescriptorProto`. -/
structure DescriptorProto where
  name : String
  field : List FieldDescriptorProto := []
  nestedType : List DescriptorProto := []
  enumType : List EnumDescriptorProto := []
  options : Option MessageOptions := none
  oneofDecl : List OneofDescriptorProto := []
  others : OtherRecords [1, 2, 3, 4, 7, 8] := .none

/-- `options.map_entry`. -/
def DescriptorProto.mapEntry (proto : DescriptorProto) : Bool :=
  (proto.options.map (·.mapEntry)).getD false

/-! ## Serialization -/

/-- The records of a `FieldDescriptorProto` the parser reads. -/
def FieldDescriptorProto.known (field : FieldDescriptorProto) : List Record :=
  [⟨1, .len (utf8 field.name)⟩, ⟨3, .varint field.number.toUInt64⟩,
    ⟨4, .varint (if field.repeated then 3 else 1)⟩, ⟨5, .varint field.type.code⟩]
    ++ (field.type.typeName.map fun typeName => ⟨6, .len (utf8 typeName)⟩).toList
    ++ (field.oneofIndex.map fun idx => ⟨9, .varint idx.toUInt64⟩).toList
    ++ (if field.proto3Optional then [⟨17, .varint 1⟩] else [])

/-- The records of a `FieldDescriptorProto`. -/
def FieldDescriptorProto.serialized (field : FieldDescriptorProto) : List Record :=
  inNumberOrder (field.known ++ field.others.records)

/-- The records of an `EnumValueDescriptorProto`. -/
def EnumValueDescriptorProto.serialized (value : EnumValueDescriptorProto) : List Record :=
  [⟨1, .len (utf8 value.name)⟩, ⟨2, .varint value.number.toInt64.toUInt64⟩]

/-- The records of an `EnumDescriptorProto`. -/
def EnumDescriptorProto.serialized (enum : EnumDescriptorProto) : List Record :=
  ⟨1, .len (utf8 enum.name)⟩
    :: enum.value.map fun value => ⟨2, .len (recordsBytes value.serialized)⟩

/-- The records of a `OneofDescriptorProto`. -/
def OneofDescriptorProto.serialized (decl : OneofDescriptorProto) : List Record :=
  inNumberOrder (⟨1, .len (utf8 decl.name)⟩ :: decl.others.records)

/-- The records of `MessageOptions`. -/
def MessageOptions.serialized (options : MessageOptions) : List Record :=
  inNumberOrder ((if options.mapEntry then [⟨7, .varint 1⟩] else []) ++ options.others.records)

mutual

/-- The records of a `DescriptorProto`. -/
def DescriptorProto.serialized : DescriptorProto → List Record
  | ⟨name, field, nestedType, enumType, options, oneofDecl, others⟩ =>
      inNumberOrder
        ((⟨1, .len (utf8 name)⟩
          :: field.map (fun f => (⟨2, .len (recordsBytes f.serialized)⟩ : Record))
          ++ nestedSerialized nestedType
          ++ enumType.map (fun e => (⟨4, .len (recordsBytes e.serialized)⟩ : Record))
          ++ (options.map fun o => (⟨7, .len (recordsBytes o.serialized)⟩ : Record)).toList
          ++ oneofDecl.map fun d => (⟨8, .len (recordsBytes d.serialized)⟩ : Record))
        ++ others.records)

/-- The records of the nested types. -/
def nestedSerialized : List DescriptorProto → List Record
  | [] => []
  | proto :: rest => ⟨3, .len (recordsBytes proto.serialized)⟩ :: nestedSerialized rest

end

/-- `SerializeToString()`. -/
def DescriptorProto.bytes (proto : DescriptorProto) : Bytes := recordsBytes proto.serialized

/-- The nested types as records. -/
theorem nestedSerialized_eq (protos : List DescriptorProto) :
    nestedSerialized protos
      = protos.map fun proto => (⟨3, .len (recordsBytes proto.serialized)⟩ : Record) := by
  induction protos with
  | nil => rfl
  | cons proto rest ih => rw [nestedSerialized, ih, List.map_cons]

/-! ## Reading the parts -/

/-- A string survives its bytes. -/
theorem stringOf_utf8 (s : String) : stringOf (utf8 s) = .ok s := by
  unfold stringOf utf8
  rw [fromUtf8_toUTF8]

section Skipped

variable {numbers : List UInt32} (others : OtherRecords numbers) {known : List Record}

/-- Sorting moves the other records only. -/
theorem filter_inNumberOrder (hsorted : known.Pairwise fun a b => a.number ≤ b.number)
    (hknown : ∀ rec ∈ known, rec.number ∈ numbers) :
    (inNumberOrder (known ++ others.records)).filter (fun rec => decide (rec.number ∈ numbers))
      = known := by
  have hall : known.filter (fun rec => decide (rec.number ∈ numbers)) = known :=
    List.filter_eq_self.mpr fun rec hrec => decide_eq_true (hknown rec hrec)
  have hnone : others.records.filter (fun rec => decide (rec.number ∈ numbers)) = [] :=
    List.filter_eq_nil_iff.mpr fun rec hrec => by simpa using (others.skipped rec hrec).2
  have hperm := (List.perm_insertionSort (fun a b : Record => a.number ≤ b.number)
    (known ++ others.records)).filter fun rec => decide (rec.number ∈ numbers)
  rw [List.filter_append, hall, hnone, List.append_nil] at hperm
  -- the sort is stable, so the known records keep their order
  have hsub : known.Sublist (inNumberOrder (known ++ others.records)) :=
    List.sublist_insertionSort hsorted (List.sublist_append_left _ _)
  have hfilter := hsub.filter fun rec => decide (rec.number ∈ numbers)
  rw [hall] at hfilter
  exact (hfilter.eq_of_length hperm.length_eq.symm).symm

/-- A loop that skips the other records sees the known ones only. -/
theorem foldlM_inNumberOrder {σ ε : Type} {step : σ → Record → Except ε σ}
    (hsorted : known.Pairwise fun a b => a.number ≤ b.number)
    (hknown : ∀ rec ∈ known, rec.number ∈ numbers)
    (hskip : ∀ s rec, rec.number ∉ numbers → step s rec = .ok s) (s : σ) :
    (inNumberOrder (known ++ others.records)).foldlM step s = known.foldlM step s := by
  rw [foldlM_filter (p := fun rec => decide (rec.number ∈ numbers))
    (fun s rec h => hskip s rec (of_decide_eq_false h)), filter_inNumberOrder others hsorted hknown]

/-- The records of a serialized message are readable when they fit. -/
theorem readable_inNumberOrder (hknown : ∀ rec ∈ known, ValidNumber rec.number)
    (hlen : (recordsBytes (inNumberOrder (known ++ others.records))).length < 2 ^ 64) :
    ∀ rec ∈ inNumberOrder (known ++ others.records), rec.Readable := by
  intro rec hrec
  refine ⟨?_, fits_of_recordsBytes hlen rec hrec⟩
  rcases List.mem_append.mp ((List.mem_insertionSort _).mp hrec) with h | h
  · exact hknown rec h
  · exact (others.skipped rec h).1

/-- **A loop over a serialized message** is a fold over its known records. -/
theorem drainAll_serialized {σ : Type} {step : σ → Record → Except ParseError σ}
    {body : σ → ParseM σ} (hbody : Body Reader.readRecord .wire step body)
    (hsorted : known.Pairwise fun a b => a.number ≤ b.number)
    (hknown : ∀ rec ∈ known, rec.number ∈ numbers) (hvalid : (numbers.all fun n => decide (ValidNumber n)) = true)
    (hskip : ∀ s rec, rec.number ∉ numbers → step s rec = .ok s) (s : σ)
    (hlen : (recordsBytes (inNumberOrder (known ++ others.records))).length < 2 ^ 64) :
    drainAll body s (Reader.new (recordsBytes (inNumberOrder (known ++ others.records))))
      = known.foldlM step s := by
  have hsplit := split_recordsBytes (readable_inNumberOrder others
    (fun rec hrec => of_decide_eq_true (List.all_eq_true.mp hvalid _ (hknown rec hrec))) hlen)
  exact (drainAll_split hbody hsplit s).trans (foldlM_inNumberOrder others hsorted hknown hskip s)

end Skipped

/-- What `parse_raw_field` collects of a field. -/
def FieldDescriptorProto.raw (field : FieldDescriptorProto) : RawField where
  name := field.name
  number := field.number
  label := if field.repeated then 3 else 1
  typeCode := some field.type.code.toInt64
  typeName := field.type.typeName
  oneofIndex := field.oneofIndex
  proto3Optional := field.proto3Optional

/-- A record under no known number. -/
theorem number_ne {numbers : List UInt32} {rec : Record} (h : rec.number ∉ numbers) {n : UInt32}
    (hn : n ∈ numbers) : rec.number.toNat ≠ n.toNat :=
  fun heq => h (UInt32.toNat_inj.mp heq ▸ hn)

/-- The loop of `parse_raw_field` skips the other records. -/
theorem rawFieldStep_skip (raw : RawField) (rec : Record)
    (h : rec.number ∉ ([1, 3, 4, 5, 6, 9, 17] : List UInt32)) : rawFieldStep raw rec = .ok raw := by
  unfold rawFieldStep
  split
  · rename_i heq _; exact absurd heq (number_ne h (n := 1) (by decide))
  · rename_i heq _; exact absurd heq (number_ne h (n := 3) (by decide))
  · rename_i heq _; exact absurd heq (number_ne h (n := 4) (by decide))
  · rename_i heq _; exact absurd heq (number_ne h (n := 5) (by decide))
  · rename_i heq _; exact absurd heq (number_ne h (n := 6) (by decide))
  · rename_i heq _; exact absurd heq (number_ne h (n := 9) (by decide))
  · rename_i heq _; exact absurd heq (number_ne h (n := 17) (by decide))
  · rfl

/-- **`parse_raw_field` collects the parts of a serialized field.** -/
theorem FieldDescriptorProto.parse (field : FieldDescriptorProto)
    (hlen : (recordsBytes field.serialized).length < 2 ^ 64) :
    parseRawField (recordsBytes field.serialized) = .ok field.raw := by
  refine (drainAll_serialized field.others rawField_body ?_ ?_ (by decide) rawFieldStep_skip {}
    hlen).trans ?_
  · unfold known
    cases field.type <;> cases field.oneofIndex <;> cases field.proto3Optional <;>
      simp [ProtoType.typeName]
  · unfold known
    cases field.type <;> cases field.oneofIndex <;> cases field.proto3Optional <;>
      simp [ProtoType.typeName]
  · unfold known raw
    cases field.type <;> cases field.oneofIndex <;> cases field.proto3Optional <;>
      cases field.repeated <;>
      simp [ProtoType.typeName, rawFieldStep, stringOf_utf8]

/-- The loop over a `OneofDescriptorProto` skips the other records. -/
theorem oneofStep_skip (name : String) (rec : Record) (h : rec.number ∉ ([1] : List UInt32)) :
    oneofStep name rec = .ok name := by
  unfold oneofStep
  split
  · rename_i heq _; exact absurd heq (number_ne h (n := 1) (by decide))
  · rfl

/-- The name of a serialized oneof declaration is read. -/
theorem OneofDescriptorProto.parse (decl : OneofDescriptorProto)
    (hlen : (recordsBytes decl.serialized).length < 2 ^ 64) :
    drainAll oneofBody "" (Reader.new (recordsBytes decl.serialized)) = .ok decl.name := by
  refine (@drainAll_serialized _ decl.others [⟨1, .len (utf8 decl.name)⟩] _ _ _ oneof_body
    (List.pairwise_singleton _ _) (by simp) (by decide) oneofStep_skip "" hlen).trans ?_
  simp [oneofStep, stringOf_utf8]

/-- The loop over `MessageOptions` skips the other records. -/
theorem optionsStep_skip (isMapEntry : Bool) (rec : Record)
    (h : rec.number ∉ ([7] : List UInt32)) : optionsStep isMapEntry rec = .ok isMapEntry := by
  unfold optionsStep
  split
  · rename_i heq _; exact absurd heq (number_ne h (n := 7) (by decide))
  · rfl

/-- The flag of serialized options is read. -/
theorem MessageOptions.parse (options : MessageOptions)
    (hlen : (recordsBytes options.serialized).length < 2 ^ 64) :
    drainAll optionsBody false (Reader.new (recordsBytes options.serialized))
      = .ok options.mapEntry := by
  refine (drainAll_serialized options.others options_body ?_ ?_ (by decide) optionsStep_skip false
    hlen).trans ?_
  · split <;> simp
  · split <;> simp
  · cases options.mapEntry <;> simp [optionsStep]

/-! ## Reading a message -/

/-- The records of a `DescriptorProto` the parser may read. -/
def DescriptorProto.known (proto : DescriptorProto) : List Record :=
  ⟨1, .len (utf8 proto.name)⟩
    :: proto.field.map (fun f => (⟨2, .len (recordsBytes f.serialized)⟩ : Record))
    ++ proto.nestedType.map (fun p => (⟨3, .len (recordsBytes p.serialized)⟩ : Record))
    ++ proto.enumType.map (fun e => (⟨4, .len (recordsBytes e.serialized)⟩ : Record))
    ++ (proto.options.map fun o => (⟨7, .len (recordsBytes o.serialized)⟩ : Record)).toList
    ++ proto.oneofDecl.map fun d => (⟨8, .len (recordsBytes d.serialized)⟩ : Record)

/-- A message is serialized in number order. -/
theorem DescriptorProto.serialized_eq (proto : DescriptorProto) :
    proto.serialized = inNumberOrder (proto.known ++ proto.others.records) := by
  cases proto
  rw [serialized, nestedSerialized_eq, known]

section Message

variable (proto : DescriptorProto)

/-- The known records of a message stand in number order. -/
theorem DescriptorProto.known_sorted :
    proto.known.Pairwise fun a b => a.number ≤ b.number := by
  have hconst : ∀ {α : Type} (l : List α) (n : UInt32) (f : α → Payload),
      (l.map fun a => (⟨n, f a⟩ : Record)).Pairwise fun a b => a.number ≤ b.number :=
    fun l n f => List.pairwise_map.mpr (List.pairwise_of_forall fun _ _ => UInt32.le_refl n)
  unfold known
  cases proto.options <;>
    simp only [List.cons_append, List.pairwise_cons, List.pairwise_append, hconst, List.mem_append,
      List.mem_map, Option.map_none, Option.map_some, Option.toList_none, Option.toList_some,
      List.mem_singleton, List.not_mem_nil, List.Pairwise.nil] <;>
    grind

/-- The known records of a message are under known numbers. -/
theorem DescriptorProto.known_numbers :
    ∀ rec ∈ proto.known, rec.number ∈ ([1, 2, 3, 4, 7, 8] : List UInt32) := by
  unfold known
  cases proto.options <;>
    simp only [List.cons_append, List.mem_cons, List.mem_append, List.mem_map, Option.map_none,
      Option.map_some, Option.toList_none, Option.toList_some, List.not_mem_nil] <;>
    grind

variable {proto} in
/-- Every known record of a message that fits does. -/
theorem DescriptorProto.fits_known (hlen : proto.bytes.length < 2 ^ 64) :
    ∀ rec ∈ proto.known, rec.payload.Fits := by
  intro rec hrec
  unfold bytes at hlen
  rw [serialized_eq] at hlen
  exact fits_of_recordsBytes hlen rec
    ((List.mem_insertionSort _).mpr (List.mem_append_left _ hrec))

/-- **A loop over a serialized `DescriptorProto`** is a fold over its known records. -/
theorem DescriptorProto.drainAll_bytes {σ : Type} {step : σ → Record → Except ParseError σ}
    {body : σ → ParseM σ} (hbody : Body Reader.readRecord .wire step body)
    (hskip : ∀ s rec, rec.number ∉ ([1, 2, 3, 4, 7, 8] : List UInt32) → step s rec = .ok s) (s : σ)
    (hlen : proto.bytes.length < 2 ^ 64) :
    drainAll body s (Reader.new proto.bytes) = proto.known.foldlM step s := by
  unfold bytes at hlen ⊢
  rw [serialized_eq] at hlen ⊢
  exact drainAll_serialized proto.others hbody proto.known_sorted proto.known_numbers (by decide)
    hskip s hlen

/-- The loop of `parse_message` skips the other records. -/
theorem messageStep_skip (st : ParseState) (rec : Record)
    (h : rec.number ∉ ([1, 2, 3, 4, 7, 8] : List UInt32)) : messageStep st rec = .ok st := by
  unfold messageStep
  split
  · rename_i heq _; exact absurd heq (number_ne h (n := 1) (by decide))
  · rename_i heq _; exact absurd heq (number_ne h (n := 2) (by decide))
  · rename_i heq _; exact absurd heq (number_ne h (n := 3) (by decide))
  · rename_i heq _; exact absurd heq (number_ne h (n := 8) (by decide))
  · rfl

/-- The loop of `parse_nested_map_entry` skips the other records. -/
theorem nestedStep_skip (st : NestedState) (rec : Record)
    (h : rec.number ∉ ([1, 2, 3, 4, 7, 8] : List UInt32)) : nestedStep st rec = .ok st := by
  unfold nestedStep
  split
  · rename_i heq _; exact absurd heq (number_ne h (n := 1) (by decide))
  · rename_i heq _; exact absurd heq (number_ne h (n := 2) (by decide))
  · rename_i heq _; exact absurd heq (number_ne h (n := 7) (by decide))
  · rfl

/-! ## Map entries -/

/-- The kind of a value of this type. -/
def ProtoType.kind : ProtoType → FieldKind
  | .scalar s => .scalar s
  | .enum _ => .enum
  | .message typeName =>
      if typeName = timestampFullName then .timestamp
      else if typeName = durationFullName then .duration
      else .message

/-- The full name of the class that values of this type have, if any. -/
def ProtoType.className : ProtoType → Option String
  | .scalar _ => none
  | .enum typeName => some (fullName typeName)
  | .message typeName =>
      if typeName = timestampFullName ∨ typeName = durationFullName then none
      else some (fullName typeName)

/-- The kind a type has as the value of a map. -/
def ProtoType.mapValue : ProtoType → MapValue
  | .scalar s => .scalar s
  | .enum _ => .enum
  | .message typeName =>
      if typeName = timestampFullName then .timestamp
      else if typeName = durationFullName then .duration
      else .message

/-- The scalar type of a key. -/
def ProtoType.scalar? : ProtoType → Option ScalarType
  | .scalar s => some s
  | _ => none

/-- The code of a scalar type is read back. -/
theorem scalarFromProtoType_code (type : ProtoType) :
    scalarFromProtoType type.code.toInt64 = type.scalar? := by
  cases type with
  | scalar scalar => cases scalar <;> rfl
  | message typeName => rfl
  | enum typeName => rfl

/-- No scalar has the code of an enum, a message or a group. -/
theorem scalar_code_ne (scalar : ScalarType) : (ProtoType.scalar scalar).code.toInt64 ≠ typeEnum ∧
    (ProtoType.scalar scalar).code.toInt64 ≠ typeMessage ∧
    (ProtoType.scalar scalar).code.toInt64 ≠ typeGroup := by
  cases scalar <;> decide

/-- The value type of a map entry is read back. -/
theorem mapValueOf_code (type : ProtoType) :
    mapValueOf type.code.toInt64 type.typeName = .ok type.mapValue := by
  unfold mapValueOf
  cases type with
  | scalar scalar =>
      rw [if_neg (scalar_code_ne scalar).1, if_neg (scalar_code_ne scalar).2.1,
        scalarFromProtoType_code]
      rfl
  | enum typeName => rfl
  | message typeName =>
      have henum : ¬ (ProtoType.message typeName).code.toInt64 = typeEnum :=
        show ¬ (11 : Int64) = 14 by decide
      have hmessage : (ProtoType.message typeName).code.toInt64 = typeMessage := rfl
      rw [if_neg henum, if_pos hmessage]
      simp only [ProtoType.typeName, ProtoType.mapValue, Option.some.injEq]
      split
      · rfl
      · split <;> rfl

/-- The kind of a field that is no map is read back. -/
theorem kindOf_code (type : ProtoType) :
    kindOf type.code.toInt64 type.typeName = .ok (type.kind, type.className) := by
  unfold kindOf
  cases type with
  | scalar scalar =>
      rw [if_neg (scalar_code_ne scalar).1, if_neg (scalar_code_ne scalar).2.1,
        if_neg (scalar_code_ne scalar).2.2, scalarFromProtoType_code]
      rfl
  | enum typeName => rfl
  | message typeName =>
      have henum : ¬ (ProtoType.message typeName).code.toInt64 = typeEnum :=
        show ¬ (11 : Int64) = 14 by decide
      have hmessage : (ProtoType.message typeName).code.toInt64 = typeMessage := rfl
      rw [if_neg henum, if_pos hmessage]
      simp only [ProtoType.typeName, ProtoType.kind, ProtoType.className, Option.some.injEq]
      by_cases htimestamp : typeName = timestampFullName
      · simp only [htimestamp, if_true, true_or]
      · by_cases hduration : typeName = durationFullName
        · subst hduration
          rw [if_neg htimestamp, if_pos rfl, if_neg htimestamp, if_pos rfl,
            if_pos (Or.inr rfl)]
        · rw [if_neg htimestamp, if_neg hduration, if_neg htimestamp, if_neg hduration,
            if_neg (not_or.mpr ⟨htimestamp, hduration⟩)]
          rfl

/-- What a field of a nested type adds to the entry: the key is number 1 and the value number 2. -/
def NestedState.addProto (st : NestedState) (field : FieldDescriptorProto) : NestedState :=
  if field.number = 1 then { st with key := field.type.scalar? }
  else if field.number = 2 then
    { st with value := some field.type.mapValue, valueTypeName := field.type.className }
  else st

/-- The map entry a nested type is for the parser, under its name. -/
def DescriptorProto.entry (proto : DescriptorProto) : Option (String × MapEntry) :=
  NestedState.entry { proto.field.foldl NestedState.addProto { name := proto.name } with
    isMapEntry := proto.mapEntry }

/-- A map entry keeps the name of the class of its values. -/
theorem className_of_mapValue (type : ProtoType) :
    (match type.mapValue with
      | .timestamp | .duration => none
      | _ => type.typeName.map fullName) = type.className := by
  cases type with
  | scalar scalar => rfl
  | enum typeName => rfl
  | message typeName =>
      simp only [ProtoType.mapValue, ProtoType.className, ProtoType.typeName, Option.map_some]
      by_cases htimestamp : typeName = timestampFullName
      · rw [if_pos htimestamp, if_pos (Or.inl htimestamp)]
      · by_cases hduration : typeName = durationFullName
        · rw [if_neg htimestamp, if_pos hduration, if_pos (Or.inr hduration)]
        · rw [if_neg htimestamp, if_neg hduration, if_neg (not_or.mpr ⟨htimestamp, hduration⟩)]

/-- A field of a nested type is taken in. -/
theorem addField_raw (st : NestedState) (field : FieldDescriptorProto) :
    st.addField field.raw = .ok (st.addProto field) := by
  have hcode : field.raw.typeCode = some field.type.code.toInt64 := rfl
  have hname : field.raw.typeName = field.type.typeName := rfl
  have hnumber : field.raw.number = field.number := rfl
  unfold NestedState.addField NestedState.addProto
  rw [hcode]
  dsimp only
  by_cases hkey : field.number = 1
  · rw [if_pos (hnumber.trans hkey), if_pos hkey, scalarFromProtoType_code]
  · rw [if_neg fun h => hkey (hnumber.symm.trans h), if_neg hkey]
    by_cases hvalue : field.number = 2
    · rw [if_pos (hnumber.trans hvalue), if_pos hvalue, hname, mapValueOf_code, ok_bind]
      exact congrArg (fun name => Except.ok { st with
        value := some field.type.mapValue
        valueTypeName := name }) (className_of_mapValue field.type)
    · rw [if_neg fun h => hvalue (hnumber.symm.trans h), if_neg hvalue]

/-- Fields that fit are parsed. -/
theorem FieldDescriptorProto.parse_of_fits {field : FieldDescriptorProto}
    (h : (Payload.len (recordsBytes field.serialized)).Fits) :
    parseRawField (recordsBytes field.serialized) = .ok field.raw :=
  field.parse h

/-- The fields of a nested type are taken in one after the other. -/
theorem foldlM_nestedStep (fields : List FieldDescriptorProto)
    (hfits : ∀ f ∈ fields, (Payload.len (recordsBytes f.serialized)).Fits) :
    ∀ st : NestedState,
      (fields.map fun f => (⟨2, .len (recordsBytes f.serialized)⟩ : Record)).foldlM nestedStep st
        = .ok (fields.foldl NestedState.addProto st) := by
  induction fields with
  | nil => intro st; rfl
  | cons f fields ih =>
      intro st
      have hstep : nestedStep st ⟨2, .len (recordsBytes f.serialized)⟩ = .ok (st.addProto f) := by
        show (parseRawField (recordsBytes f.serialized) >>= fun raw => st.addField raw) = _
        rw [FieldDescriptorProto.parse_of_fits (hfits f List.mem_cons_self), ok_bind, addField_raw]
      rw [List.map_cons, List.foldlM_cons, hstep, ok_bind,
        ih fun g hg => hfits g (List.mem_cons_of_mem _ hg), List.foldl_cons]

/-- A fold skips records its step skips. -/
theorem foldlM_skip {σ ε : Type} {step : σ → Record → Except ε σ} {recs : List Record}
    (h : ∀ s, ∀ rec ∈ recs, step s rec = .ok s) : ∀ s, recs.foldlM step s = .ok s := by
  induction recs with
  | nil => intro s; rfl
  | cons rec recs ih =>
      intro s
      rw [List.foldlM_cons, h s rec List.mem_cons_self, ok_bind,
        ih fun s r hr => h s r (List.mem_cons_of_mem _ hr)]

/-- **`parse_nested_map_entry` finds the entry of a serialized nested type.** -/
theorem DescriptorProto.parseNestedMapEntry_bytes (hlen : proto.bytes.length < 2 ^ 64) :
    parseNestedMapEntry proto.bytes = .ok proto.entry := by
  have hfits := fits_known hlen
  have hfields : ∀ f ∈ proto.field, (Payload.len (recordsBytes f.serialized)).Fits :=
    fun f hf => hfits ⟨2, .len (recordsBytes f.serialized)⟩ (by
      simpa [known] using ⟨f, hf, rfl⟩)
  have hname : ∀ st : NestedState, nestedStep st ⟨1, .len (utf8 proto.name)⟩
      = .ok { st with name := proto.name } := by
    intro st
    show (stringOf (utf8 proto.name) >>= _) = _
    rw [stringOf_utf8, ok_bind]
  have hskip : ∀ {α : Type} (l : List α) (n : UInt32) (f : α → Payload), n = 3 ∨ n = 4 ∨ n = 8 →
      ∀ st : NestedState, (l.map fun a => (⟨n, f a⟩ : Record)).foldlM nestedStep st = .ok st := by
    intro α l n f hn st
    refine foldlM_skip (fun s rec hrec => ?_) st
    obtain ⟨a, -, rfl⟩ := List.mem_map.mp hrec
    rcases hn with rfl | rfl | rfl <;> rfl
  have hoptions : ∀ st : NestedState, st.isMapEntry = false →
      ((proto.options.map fun o => (⟨7, .len (recordsBytes o.serialized)⟩ : Record)).toList).foldlM
        nestedStep st = .ok { st with isMapEntry := proto.mapEntry } := by
    intro st hst
    cases hopt : proto.options with
    | none =>
        rw [mapEntry, hopt]
        simp only [Option.map_none, Option.getD_none]
        rw [← hst]
        rfl
    | some o =>
        have hlen' : (recordsBytes o.serialized).length < 2 ^ 64 :=
          hfits ⟨7, .len (recordsBytes o.serialized)⟩ (by simp [known, hopt])
        rw [mapEntry, hopt]
        show (drainAll optionsBody st.isMapEntry (Reader.new (recordsBytes o.serialized)) >>= _)
          >>= _ = _
        rw [hst, o.parse hlen', ok_bind]
        rfl
  -- the flag comes from the options, not from the fields
  have hkeeps : ∀ (fields : List FieldDescriptorProto) (st : NestedState),
      (fields.foldl NestedState.addProto st).isMapEntry = st.isMapEntry := by
    intro fields
    induction fields with
    | nil => intro st; rfl
    | cons f fields ih =>
        intro st
        rw [List.foldl_cons, ih]
        unfold NestedState.addProto
        split
        · rfl
        · split <;> rfl
  unfold parseNestedMapEntry
  rw [proto.drainAll_bytes nested_body nestedStep_skip {} hlen, known]
  simp only [List.cons_append, List.foldlM_cons, List.foldlM_append, hname, ok_bind,
    foldlM_nestedStep _ hfields, hskip proto.nestedType 3 _ (.inl rfl),
    hskip proto.enumType 4 _ (.inr (.inl rfl)), hskip proto.oneofDecl 8 _ (.inr (.inr rfl)),
    hoptions _ (hkeeps proto.field { name := proto.name })]
  rfl

/-- The parts `parse_message` collects of a message. -/
def DescriptorProto.parts : ParseState where
  name := proto.name
  rawFields := proto.field.map (·.raw)
  mapEntries := (proto.nestedType.filterMap (·.entry)).reverse
  oneofs := proto.oneofDecl.map (·.name)

/-- **`parse_message` collects the parts of a serialized message.** -/
theorem DescriptorProto.drainAll_messageBody (hlen : proto.bytes.length < 2 ^ 64) :
    drainAll messageBody {} (Reader.new proto.bytes) = .ok proto.parts := by
  have hfits := fits_known hlen
  have hname : ∀ st : ParseState, messageStep st ⟨1, .len (utf8 proto.name)⟩
      = .ok { st with name := proto.name } := by
    intro st
    show (stringOf (utf8 proto.name) >>= _) = _
    rw [stringOf_utf8, ok_bind]
  -- one fact for each repeated field of the message: what its records add to the state
  have hfields : ∀ fields : List FieldDescriptorProto,
      (∀ f ∈ fields, (Payload.len (recordsBytes f.serialized)).Fits) → ∀ st : ParseState,
      (fields.map fun f => (⟨2, .len (recordsBytes f.serialized)⟩ : Record)).foldlM messageStep st
        = .ok { st with rawFields := st.rawFields ++ fields.map (·.raw) } := by
    intro fields
    induction fields with
    | nil => intro _ st; simp
    | cons f fields ih =>
        intro hf st
        have hstep : messageStep st ⟨2, .len (recordsBytes f.serialized)⟩
            = .ok { st with rawFields := st.rawFields ++ [f.raw] } := by
          show (parseRawField (recordsBytes f.serialized) >>= _) = _
          rw [FieldDescriptorProto.parse_of_fits (hf f List.mem_cons_self), ok_bind]
        rw [List.map_cons, List.foldlM_cons, hstep, ok_bind,
          ih fun g hg => hf g (List.mem_cons_of_mem _ hg)]
        simp
  have hnested : ∀ protos : List DescriptorProto,
      (∀ p ∈ protos, (Payload.len p.bytes).Fits) → ∀ st : ParseState,
      (protos.map fun p => (⟨3, .len (recordsBytes p.serialized)⟩ : Record)).foldlM messageStep st
        = .ok { st with mapEntries := (protos.filterMap (·.entry)).reverse ++ st.mapEntries } := by
    intro protos
    induction protos with
    | nil => intro _ st; rfl
    | cons p protos ih =>
        intro hp st
        have hstep : messageStep st ⟨3, .len (recordsBytes p.serialized)⟩
            = .ok { st with mapEntries := p.entry.toList ++ st.mapEntries } := by
          show (parseNestedMapEntry p.bytes >>= _) = _
          rw [p.parseNestedMapEntry_bytes (hp p List.mem_cons_self), ok_bind]
        rw [List.map_cons, List.foldlM_cons, hstep, ok_bind,
          ih fun q hq => hp q (List.mem_cons_of_mem _ hq)]
        cases hentry : p.entry <;> simp [hentry]
  have hdecls : ∀ decls : List OneofDescriptorProto,
      (∀ d ∈ decls, (Payload.len (recordsBytes d.serialized)).Fits) → ∀ st : ParseState,
      (decls.map fun d => (⟨8, .len (recordsBytes d.serialized)⟩ : Record)).foldlM messageStep st
        = .ok { st with oneofs := st.oneofs ++ decls.map (·.name) } := by
    intro decls
    induction decls with
    | nil => intro _ st; simp
    | cons d decls ih =>
        intro hd st
        have hstep : messageStep st ⟨8, .len (recordsBytes d.serialized)⟩
            = .ok { st with oneofs := st.oneofs ++ [d.name] } := by
          show (drainAll oneofBody "" (Reader.new (recordsBytes d.serialized)) >>= _) = _
          rw [d.parse (hd d List.mem_cons_self), ok_bind]
        rw [List.map_cons, List.foldlM_cons, hstep, ok_bind,
          ih fun e he => hd e (List.mem_cons_of_mem _ he)]
        simp
  -- enums and options are none of the parser's business here
  have hskip : ∀ {α : Type} (l : List α) (n : UInt32) (f : α → Payload), n = 4 ∨ n = 7 →
      ∀ st : ParseState, (l.map fun a => (⟨n, f a⟩ : Record)).foldlM messageStep st = .ok st := by
    intro α l n f hn st
    refine foldlM_skip (fun s rec hrec => ?_) st
    obtain ⟨a, -, rfl⟩ := List.mem_map.mp hrec
    rcases hn with rfl | rfl <;> rfl
  have hoptions : (proto.options.map fun o => (⟨7, .len (recordsBytes o.serialized)⟩ : Record)).toList
      = proto.options.toList.map fun o => (⟨7, .len (recordsBytes o.serialized)⟩ : Record) := by
    cases proto.options <;> rfl
  rw [proto.drainAll_bytes message_body messageStep_skip {} hlen, known, hoptions]
  simp only [List.cons_append, List.foldlM_cons, List.foldlM_append, hname, ok_bind,
    hfields proto.field fun f hf => hfits ⟨2, .len (recordsBytes f.serialized)⟩ (by
      simpa [known] using ⟨f, hf, rfl⟩),
    hnested proto.nestedType fun p hp => hfits ⟨3, .len (recordsBytes p.serialized)⟩ (by
      simpa [known] using ⟨p, hp, rfl⟩),
    hskip proto.enumType 4 _ (.inl rfl), hskip proto.options.toList 7 _ (.inr rfl),
    hdecls proto.oneofDecl fun d hd => hfits ⟨8, .len (recordsBytes d.serialized)⟩ (by
      simpa [known] using ⟨d, hd, rfl⟩)]
  simp [parts]

/-! ## The compiled message -/

/-- Whether a type is a message type. -/
def ProtoType.isMessage : ProtoType → Bool
  | .message _ => true
  | _ => false

/-- The map entry a field refers to for the parser. -/
def FieldDescriptorProto.mapEntry (field : FieldDescriptorProto) (mapEntries : MapEntries)
    (msgName : String) : Option MapEntry :=
  if field.repeated && field.type.isMessage then findMapEntry field.raw mapEntries msgName
  else none

/-- The oneof index a field keeps: that of a real group. -/
def FieldDescriptorProto.realOneof (field : FieldDescriptorProto) : Option UInt32 :=
  if field.proto3Optional then none else field.oneofIndex

/-- The field as `interpret_field` returns it. -/
def FieldDescriptorProto.compile (field : FieldDescriptorProto) (mapEntries : MapEntries)
    (msgName : String) : FieldDescriptor :=
  match field.mapEntry mapEntries msgName with
  | some entry =>
      { number := field.number
        name := field.name
        kind := .map entry.key entry.value
        label := .single
        typeName := entry.valueTypeName
        oneofIndex := none }
  | none =>
      { number := field.number
        name := field.name
        kind := field.type.kind
        label :=
          if field.repeated then .repeated
          else if field.proto3Optional || field.type.kind.isMessageLike || field.realOneof.isSome then
            .optional
          else .single
        typeName := field.type.className
        oneofIndex := field.realOneof }

/-- **`interpret_field` returns the compiled field.** -/
theorem interpretField_raw (field : FieldDescriptorProto) (mapEntries : MapEntries)
    (msgName : String) :
    interpretField field.raw mapEntries msgName = .ok (field.compile mapEntries msgName) := by
  have hrepeated : decide (field.raw.label = labelRepeated) = field.repeated := by
    have hboth : ∀ b : Bool, decide ((if b then (3 : Int64) else 1) = labelRepeated) = b := by
      decide
    exact hboth field.repeated
  have hmessage : decide (field.type.code.toInt64 = typeMessage) = field.type.isMessage := by
    cases field.type with
    | scalar scalar => exact decide_eq_false (scalar_code_ne scalar).2.1
    | enum typeName => rfl
    | message typeName => rfl
  have hcode : field.raw.typeCode = some field.type.code.toInt64 := rfl
  have hname : field.raw.typeName = field.type.typeName := rfl
  unfold interpretField
  rw [hcode]
  dsimp only
  rw [hrepeated, hmessage, hname, kindOf_code, ok_bind]
  unfold FieldDescriptorProto.compile
  cases hentry : field.mapEntry mapEntries msgName with
  | some entry =>
      rw [FieldDescriptorProto.mapEntry] at hentry
      rw [hentry]
      rfl
  | none =>
      rw [FieldDescriptorProto.mapEntry] at hentry
      rw [hentry]
      rfl

/-- The message as `parse_message` returns it. -/
def DescriptorProto.compiled : MessageDescriptor where
  name := proto.name
  fields := proto.field.map fun field =>
    clampOneof (proto.oneofDecl.map (·.name)) (field.compile proto.parts.mapEntries proto.name)
  oneofs := proto.oneofDecl.map (·.name)

/-- **`parse_message` returns the compiled message.** -/
theorem DescriptorProto.parseMessage_bytes (hlen : proto.bytes.length < 2 ^ 64) :
    parseMessage proto.bytes = .ok proto.compiled := by
  have hfields : ∀ fields : List FieldDescriptorProto,
      (fields.map (·.raw)).mapM (fun raw => interpretField raw proto.parts.mapEntries proto.name)
        = .ok (fields.map fun field => field.compile proto.parts.mapEntries proto.name) := by
    intro fields
    induction fields with
    | nil => rfl
    | cons field fields ih =>
        rw [List.map_cons, List.mapM_cons, interpretField_raw, ok_bind, ih, ok_bind]
        rfl
  unfold parseMessage
  rw [proto.drainAll_messageBody hlen, ok_bind, ParseState.finish]
  show (List.mapM (fun raw => interpretField raw proto.parts.mapEntries proto.name)
    (proto.field.map (·.raw)) >>= _) = _
  rw [hfields, ok_bind, compiled, List.map_map]
  rfl

end Message

end FastProto
