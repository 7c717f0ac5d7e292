import FastProto.TypeIndex

/-! # What `protoc` checks of a set of proto3 files

The plugin is handed files that `protoc` has parsed and checked. `ProtocValid` collects the checks
the code generator and the descriptor parser rely on. -/

namespace FastProto

open Lib

/-- An identifier: letters, digits and underscores, not a digit first. -/
def isIdentifier (name : String) : Bool :=
  match name.toList with
  | [] => false
  | c :: rest => (c.isAlpha || c == '_') && rest.all fun c => c.isAlphanum || c == '_'

/-- An identifier has no dots. -/
theorem no_dot_of_isIdentifier {name : String} (h : isIdentifier name = true) :
    '.' ∉ name.toList := by
  unfold isIdentifier at h
  split at h
  · cases h
  · rename_i c rest heq
    rw [heq]
    intro hdot
    simp only [Bool.and_eq_true, Bool.or_eq_true, beq_iff_eq, List.all_eq_true] at h
    rcases List.mem_cons.mp hdot with rfl | hdot
    · exact absurd h.1 (by decide)
    · exact absurd (h.2 _ hdot) (by decide)

/-- A path with a dotted part in front ends in its last identifier. -/
theorem shortName_append {outer name : String} (h : '.' ∉ name.toList) :
    shortName (outer ++ "." ++ name) = name := by
  rw [shortName, segments_append, segments_of_no_dot h, List.getLastD_eq_getLast?,
    List.getLast?_append]
  rfl

/-- The segment before the last is the last one of what stands in front. -/
theorem parentSegment_append {outer name : String} (h : '.' ∉ name.toList) :
    parentSegment (outer ++ "." ++ name) = some (shortName outer) := by
  obtain ⟨last, hlast⟩ := Option.ne_none_iff_exists'.mp
    (List.getLast?_eq_none_iff.not.mpr (segments_ne_nil outer))
  rw [parentSegment, segments_append, segments_of_no_dot h, List.reverse_append, shortName,
    List.getLastD_eq_getLast?, hlast]
  rw [← List.head?_reverse, List.head?_eq_getElem?] at hlast
  exact hlast

/-- The full name of the message a type refers to. -/
def ProtoType.messageName : ProtoType → Option String
  | .message typeName => some typeName
  | _ => none

/-- The full name of the enum a type refers to. -/
def ProtoType.enumName : ProtoType → Option String
  | .enum typeName => some typeName
  | _ => none

/-- Exactly the message types have the full name of a message. -/
theorem ProtoType.mem_messageName {type : ProtoType} {typeName : String} :
    typeName ∈ type.messageName ↔ type = .message typeName := by
  cases type <;> simp [ProtoType.messageName, eq_comm]

/-- Exactly the enum types have the full name of an enum. -/
theorem ProtoType.mem_enumName {type : ProtoType} {typeName : String} :
    typeName ∈ type.enumName ↔ type = .enum typeName := by
  cases type <;> simp [ProtoType.enumName, eq_comm]

/-- The fields `key` and `value` of a map entry. -/
def DescriptorProto.keyValue (entry : DescriptorProto) :
    Option (FieldDescriptorProto × FieldDescriptorProto) :=
  match entry.field with
  | [key, value] => some (key, value)
  | _ => none

/-- The fields of the synthetic message of a `map<K, V>` field. -/
structure IsKeyValue (key value : FieldDescriptorProto) : Prop where
  keyNumber : key.number = 1
  valueNumber : value.number = 2
  keyScalar : key.type.scalar?.isSome = true
  singular : key.repeated = false ∧ value.repeated = false

instance (key value : FieldDescriptorProto) : Decidable (IsKeyValue key value) :=
  decidable_of_iff (key.number = 1 ∧ value.number = 2 ∧ key.type.scalar?.isSome = true ∧
      key.repeated = false ∧ value.repeated = false)
    ⟨fun ⟨h₁, h₂, h₃, h₄⟩ => ⟨h₁, h₂, h₃, h₄⟩, fun ⟨h₁, h₂, h₃, h₄⟩ => ⟨h₁, h₂, h₃, h₄⟩⟩

/-- The enums of a file with their full names. -/
def FileDescriptorProto.enums (file : FileDescriptorProto) :
    List (String × EnumDescriptorProto) :=
  file.enumType.map (fun enum => (file.scope ++ "." ++ enum.name, enum))
    ++ file.messages.flatMap fun p =>
      p.2.enumType.map fun enum => (p.1 ++ "." ++ enum.name, enum)

/-- The names a message declares in its scope, where enum values stand beside their enum. -/
def DescriptorProto.memberNames (msg : DescriptorProto) : List String :=
  msg.field.map (·.name) ++ msg.oneofDecl.map (·.name) ++ msg.nestedType.map (·.name)
    ++ msg.enumType.flatMap fun enum => enum.name :: enum.value.map (·.name)

/-- The messages of all files with their full names. -/
def messagesOf (files : List FileDescriptorProto) : List (String × DescriptorProto) :=
  files.flatMap (·.messages)

/-- The enums of all files with their full names. -/
def enumsOf (files : List FileDescriptorProto) : List (String × EnumDescriptorProto) :=
  files.flatMap (·.enums)

/-- What `protoc` checks of a message, here with its full name. -/
structure MessageValid (files : List FileDescriptorProto) (p : String × DescriptorProto) :
    Prop where
  name : isIdentifier p.2.name = true
  /-- The names in the scope of the message are distinct identifiers. -/
  members : p.2.memberNames.Nodup
  memberNames : ∀ name ∈ p.2.memberNames, isIdentifier name = true
  /-- A reference to a message is the full name of one. -/
  messageRefs : ∀ field ∈ p.2.field, ∀ typeName ∈ field.type.messageName,
    typeName ∈ (messagesOf files).map Prod.fst
  /-- A reference to an enum is the full name of one. -/
  enumRefs : ∀ field ∈ p.2.field, ∀ typeName ∈ field.type.enumName,
    typeName ∈ (enumsOf files).map Prod.fst
  /-- A map entry has a key and a value. -/
  entry : p.2.mapEntry = true → ∃ kv ∈ p.2.keyValue, IsKeyValue kv.1 kv.2
  entryLeaf : p.2.mapEntry = true → p.2.nestedType = [] ∧ p.2.enumType = []
  /-- The map entries a field refers to are nested in its message, and the field is repeated. -/
  entryFields : ∀ field ∈ p.2.field, ∀ typeName ∈ field.type.messageName,
    typeName ∈ ((messagesOf files).filter (·.2.mapEntry)).map Prod.fst →
      field.repeated = true ∧ typeName ∈ p.2.nestedType.map fun entry => p.1 ++ "." ++ entry.name
  /-- A message serializes to less than 2 GiB. -/
  size : p.2.bytes.length < 2 ^ 31

/-- What `protoc` checks of an enum. -/
structure EnumDescriptorProto.Valid (enum : EnumDescriptorProto) : Prop where
  name : isIdentifier enum.name = true
  values : ∀ value ∈ enum.value, isIdentifier value.name = true
  /-- The values start with zero. -/
  zero : enum.value.head?.map (·.number) = some 0

/-- **A set of proto3 files that `protoc` accepts**, closed under imports. -/
structure ProtocValid (files : List FileDescriptorProto) : Prop where
  fileNames : (files.map (·.name)).Nodup
  packages : ∀ file ∈ files, file.package = "" ∨
    ∀ segment ∈ segments file.package, isIdentifier segment = true
  /-- Types have distinct full names. -/
  typeNames : ((TypeIndex.build files).map Prod.fst).Nodup
  messages : ∀ p ∈ messagesOf files, MessageValid files p
  enums : ∀ p ∈ enumsOf files, p.2.Valid

section Decide

instance (msgs : List DescriptorProto) : Decidable (msgs = []) :=
  decidable_of_iff (msgs.isEmpty = true) List.isEmpty_iff

variable (files : List FileDescriptorProto)

instance (p : String × DescriptorProto) : Decidable (MessageValid files p) :=
  decidable_of_iff
    ((isIdentifier p.2.name = true ∧ p.2.memberNames.Nodup ∧
        ∀ name ∈ p.2.memberNames, isIdentifier name = true) ∧
      (∀ field ∈ p.2.field, ∀ typeName ∈ field.type.messageName,
        typeName ∈ (messagesOf files).map Prod.fst) ∧
      (∀ field ∈ p.2.field, ∀ typeName ∈ field.type.enumName,
        typeName ∈ (enumsOf files).map Prod.fst) ∧
      (p.2.mapEntry = true → ∃ kv ∈ p.2.keyValue, IsKeyValue kv.1 kv.2) ∧
      (p.2.mapEntry = true → p.2.nestedType = [] ∧ p.2.enumType = []) ∧
      (∀ field ∈ p.2.field, ∀ typeName ∈ field.type.messageName,
        typeName ∈ ((messagesOf files).filter (·.2.mapEntry)).map Prod.fst →
          field.repeated = true ∧
            typeName ∈ p.2.nestedType.map fun entry => p.1 ++ "." ++ entry.name) ∧
      p.2.bytes.length < 2 ^ 31)
    ⟨fun ⟨⟨h₁, h₂, h₃⟩, h₄, h₅, h₆, h₇, h₈, h₉⟩ => ⟨h₁, h₂, h₃, h₄, h₅, h₆, h₇, h₈, h₉⟩,
      fun ⟨h₁, h₂, h₃, h₄, h₅, h₆, h₇, h₈, h₉⟩ => ⟨⟨h₁, h₂, h₃⟩, h₄, h₅, h₆, h₇, h₈, h₉⟩⟩

instance (enum : EnumDescriptorProto) : Decidable enum.Valid :=
  decidable_of_iff (isIdentifier enum.name = true ∧
      (∀ value ∈ enum.value, isIdentifier value.name = true) ∧
      enum.value.head?.map (·.number) = some 0)
    ⟨fun ⟨h₁, h₂, h₃⟩ => ⟨h₁, h₂, h₃⟩, fun ⟨h₁, h₂, h₃⟩ => ⟨h₁, h₂, h₃⟩⟩

instance : Decidable (ProtocValid files) :=
  decidable_of_iff
    ((files.map (·.name)).Nodup ∧
      (∀ file ∈ files, file.package = "" ∨
        ∀ segment ∈ segments file.package, isIdentifier segment = true) ∧
      ((TypeIndex.build files).map Prod.fst).Nodup ∧
      (∀ p ∈ messagesOf files, MessageValid files p) ∧ ∀ p ∈ enumsOf files, p.2.Valid)
    ⟨fun ⟨h₁, h₂, h₃, h₄, h₅⟩ => ⟨h₁, h₂, h₃, h₄, h₅⟩,
      fun ⟨h₁, h₂, h₃, h₄, h₅⟩ => ⟨h₁, h₂, h₃, h₄, h₅⟩⟩

end Decide

/-- A map entry holds a key and a value field. -/
theorem keyValue_of_mem {entry : DescriptorProto} {kv : FieldDescriptorProto × FieldDescriptorProto}
    (h : kv ∈ entry.keyValue) : entry.field = [kv.1, kv.2] := by
  unfold DescriptorProto.keyValue at h
  split at h
  · rename_i key value hfield
    rw [Option.mem_def, Option.some.injEq] at h
    rw [← h, hfield]
  · cases h

namespace ProtocValid

variable {files : List FileDescriptorProto} {file : FileDescriptorProto}

/-- The messages of a file are valid. -/
theorem message (hvalid : ProtocValid files) (hfile : file ∈ files)
    {p : String × DescriptorProto} (hp : p ∈ file.messages) : MessageValid files p :=
  hvalid.messages p (List.mem_flatMap.mpr ⟨file, hfile, hp⟩)

/-- Two messages with one full name are the same message. -/
theorem message_unique (hvalid : ProtocValid files) {file' : FileDescriptorProto}
    (hfile : file ∈ files) (hfile' : file' ∈ files) {p q : String × DescriptorProto}
    (hp : p ∈ file.messages) (hq : q ∈ file'.messages) (hname : p.1 = q.1) : p.2 = q.2 := by
  have hgetp := TypeIndex.get_of_mem hvalid.typeNames (TypeIndex.message_mem_build hfile hp)
  have hgetq := TypeIndex.get_of_mem hvalid.typeNames (TypeIndex.message_mem_build hfile' hq)
  rw [hname, hgetq, Option.some.injEq, TypeInfo.mk.injEq] at hgetp
  exact (Option.some.inj hgetp.2.2).symm

/-- A message is found under its full name. -/
theorem lookup_messagesOf (hvalid : ProtocValid files) {p : String × DescriptorProto}
    (hp : p ∈ messagesOf files) : (messagesOf files).lookup p.1 = some p.2 := by
  cases hfound : (messagesOf files).lookup p.1 with
  | none => exact absurd (List.mem_map_of_mem hp) (lookup_eq_none_iff_not_mem.mp hfound)
  | some msg =>
      obtain ⟨file, hfile, hp⟩ := List.mem_flatMap.mp hp
      obtain ⟨file', hfile', hmsg⟩ := List.mem_flatMap.mp (mem_of_lookup hfound)
      rw [hvalid.message_unique hfile hfile' hp hmsg rfl]

/-- The user-facing messages of a file have distinct full names. -/
theorem nodup_allMessages (hvalid : ProtocValid files) (hfile : file ∈ files) :
    (file.allMessages.map Prod.fst).Nodup :=
  (((forest_sublist (fun _ _ => rfl) _ _).map Prod.fst).trans
    (TypeIndex.names_sublist_build hfile)).nodup hvalid.typeNames

/-- **A map entry that a field refers to** is nested in the message of the field, which is
repeated. -/
theorem entry_field (hvalid : ProtocValid files) {file' : FileDescriptorProto}
    (hfile : file ∈ files) (hfile' : file' ∈ files) {p q : String × DescriptorProto}
    (hp : p ∈ file.messages) (hq : q ∈ file'.messages) {field : FieldDescriptorProto}
    (hfield : field ∈ p.2.field) (hmap : q.2.mapEntry = true)
    (htype : field.type = .message q.1) :
    field.repeated = true ∧ q.2 ∈ p.2.nestedType ∧ q.1 = p.1 ++ "." ++ q.2.name := by
  have hname := ProtoType.mem_messageName.mpr htype
  have hentry : q.1 ∈ ((messagesOf files).filter (·.2.mapEntry)).map Prod.fst :=
    List.mem_map.mpr ⟨q, List.mem_filter.mpr ⟨List.mem_flatMap.mpr ⟨file', hfile', hq⟩, hmap⟩, rfl⟩
  obtain ⟨hrep, hnested⟩ := (hvalid.message hfile hp).entryFields field hfield q.1 hname hentry
  obtain ⟨entry, hentry, hfull⟩ := List.mem_map.mp hnested
  have heq := hvalid.message_unique hfile hfile' (file.nested_mem hp hentry) hq hfull
  dsimp only at heq
  exact ⟨hrep, heq ▸ hentry, by rw [← hfull, heq]⟩

end ProtocValid

end FastProto
