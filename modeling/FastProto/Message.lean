import FastProto.Parse
import FastProto.PyClass

/-! # The `Descriptor` object (`src/message/mod.rs`)

A compiled message descriptor together with what linking stores on it: the resolved class references
and the context of the fast construction path. -/

namespace FastProto

/-- How many low enum values the direct member table covers. -/
def enumTableSize : Nat := 64

/-- A resolved reference for one enum/message field, captured at link time. -/
structure LinkedRef where
  /-- The Python class (an `IntEnum` or a message dataclass). -/
  cls : ClassId
  /-- For enums with the default `_missing_`: the `_value2member_map_` of the class. -/
  enumMap : Option (List (Int × PyVal)) := none
  /-- Members with values in `0..ENUM_TABLE_SIZE`, indexed by value. -/
  enumTable : Option (List (Option PyVal)) := none
  /-- For message classes: the compiled descriptor of the class. -/
  desc : Option DescId := none

/-- What the fast construction path needs, captured at link time. -/
structure FastInit where
  /-- The exact class the fast path was verified for. -/
  cls : ClassId
  /-- Per-field default objects, index-aligned with the fields. -/
  defaults : List PyVal

/-- The references of a descriptor, by field number. -/
abbrev Refs := List (UInt32 × LinkedRef)

/-- A compiled descriptor and its link state. -/
structure Descriptor where
  inner : MessageDescriptor
  refs : Option Refs := none
  linked : Bool := false
  fastInit : Option FastInit := none

namespace Descriptor

/-- Field-number to field-index lookup for the decoder. -/
def fieldIndex (desc : Descriptor) : FieldIndex := FieldIndex.build desc.inner.fields

/-- `desc.refs().and_then(|r| r.get(&number))`. -/
def ref (desc : Descriptor) (number : UInt32) : Option LinkedRef :=
  desc.refs.bind fun refs => refs.lookup number

/-- Field attribute names in declaration order. -/
def fieldNames (desc : Descriptor) : List String := desc.inner.fields.map (·.name)

end Descriptor

/-- Whether the decoder always builds an accumulator for the field: repeated lists and maps. -/
def FieldDescriptor.isCollection (field : FieldDescriptor) : Bool :=
  match field.kind with
  | .map _ _ => true
  | _ => decide (field.label = .repeated)

/-- Whether a field refers to a class: enum, message, or a map with an enum/message value. -/
def FieldKind.needsRef : FieldKind → Bool
  | .enum | .message => true
  | .map _ value => decide (value = .enum ∨ value = .message)
  | .scalar _ | .timestamp | .duration => false

/-- `(field_number, qualified_type_name)` for every field that references another class. -/
def MessageDescriptor.refFields (desc : MessageDescriptor) : List (UInt32 × String) :=
  desc.fields.filterMap fun f =>
    if f.kind.needsRef then f.typeName.map fun name => (f.number, name) else none

/-- The `_value2member_map_` of an enum class. -/
def EnumClass.valueMap (enum : EnumClass) (cls : ClassId) : List (Int × PyVal) :=
  enum.values.map fun value => (value, .member cls value)

/-- The direct table over the low values. -/
def EnumClass.table (enum : EnumClass) (cls : ClassId) : List (Option PyVal) :=
  (List.range enumTableSize).map fun (slot : Nat) => (enum.valueMap cls).lookup (slot : Int)

/-- Inspect a linked class once and capture the fast-path handles the codec needs. -/
def buildLinkedRef (id : ClassId) (cls : PyClass) : LinkedRef :=
  match cls.fastproto with
  | some desc => { cls := id, desc := some desc }
  | none =>
      match cls.enum with
      | some enum =>
          match enum.missing with
          | none =>
              { cls := id, enumMap := some (enum.valueMap id), enumTable := some (enum.table id) }
          | some _ => { cls := id }
      | none => { cls := id }

/-- The identity of a linked class is the one of the class found. -/
theorem buildLinkedRef_cls (id : ClassId) (cls : PyClass) : (buildLinkedRef id cls).cls = id := by
  unfold buildLinkedRef
  split
  · rfl
  · split
    · split <;> rfl
    · rfl

/-- The descriptor of a linked class is the one the class has. -/
theorem buildLinkedRef_desc (id : ClassId) (cls : PyClass) :
    (buildLinkedRef id cls).desc = cls.fastproto := by
  unfold buildLinkedRef
  split
  · rename_i desc hproto
    rw [hproto]
  · rename_i hproto
    rw [hproto]
    split
    · split <;> rfl
    · rfl

/-- Store resolved `{field_number: class}` references and mark linked: what is set already stays. -/
def Descriptor.link (desc : Descriptor) (refs : Refs) (fastInit : Option FastInit) :
    PyResult Descriptor :=
  let store := { desc with
    refs := desc.refs.or (some refs)
    linked := true
    fastInit := desc.fastInit.or fastInit }
  match fastInit with
  | some fast =>
      if fast.defaults.length ≠ desc.inner.fields.length then
        .error (.valueError "fast_init defaults must have one entry per field")
      else .ok store
  | none => .ok store

end FastProto
