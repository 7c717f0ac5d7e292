import FastProto.Render
import FastProto.Schema

/-! # The code generator and the descriptor parser on the same field

The renderer finds the type of a field by its full name in the index over all files; the parser sees
the bytes of one message only and compares the last two segments of the name. `ClassifiesAlike` says
that both arrive at the same shape for every field, and `classifiesAlike_iff` when they do. -/

namespace FastProto

open Lib

/-! ## Shapes -/

/-- Whether a default is a zero value: a literal, or the zero of an enum. -/
def DefaultExpr.isZero : DefaultExpr → Bool
  | .literal _ | .enumZero _ | .enumFactory _ => true
  | .pyNone | .listFactory | .dictFactory => false

/-- **A rendered line and a compiled field have the same shape.** -/
structure SameShape (line : FieldLine) (field : FieldDescriptor) : Prop where
  dict : (∃ key value, line.annot = .dict key value) ↔ field.kind.isMap = true
  list : (∃ element, line.annot = .list element) ↔ field.label = .repeated
  optional : (∃ type, line.annot = .optional type) ∧ line.default = .pyNone ↔
    field.label = .optional
  zero : line.default.isZero = true ↔ field.label = .single ∧ field.kind.isMap = false

/-- A field refers to a map entry nested in its own message. -/
def OwnEntry (p : String × DescriptorProto) (field : FieldDescriptorProto) : Prop :=
  ∃ entry ∈ p.2.nestedType, entry.mapEntry = true ∧
    field.type = .message (p.1 ++ "." ++ entry.name)

/-- **Every field of every message has one shape** for the renderer and for the parser, and is a map
exactly when its type is a map entry nested in the message. -/
def ClassifiesAlike (files : List FileDescriptorProto) : Prop :=
  ∀ file ∈ files, ∀ p ∈ file.allMessages, ∃ desc, parseMessage p.2.bytes = .ok desc ∧
    desc.fields.length = p.2.field.length ∧
    ∀ (i : Nat) (field : FieldDescriptorProto), p.2.field[i]? = some field → ∃ line compiled,
      renderField (TypeIndex.build files) field = some line ∧
      desc.fields[i]? = some compiled ∧ SameShape line compiled ∧
      (compiled.kind.isMap = true ↔ OwnEntry p field)

/-- A repeated field of another message type is taken for a map: its type name ends in the name of
the message and the name of one of its map entries. -/
def Swallowed (p : String × DescriptorProto) (field : FieldDescriptorProto) : Prop :=
  field.repeated = true ∧ ∃ typeName ∈ field.type.messageName,
    parentSegment typeName = some p.2.name ∧
    ∃ entry ∈ p.2.nestedType, entry.mapEntry = true ∧ entry.name = shortName typeName ∧
      typeName ≠ p.1 ++ "." ++ entry.name

instance (p : String × DescriptorProto) (field : FieldDescriptorProto) :
    Decidable (Swallowed p field) := by
  unfold Swallowed
  infer_instance

/-- A singular field without presence whose enum has the name of a native well-known type. -/
def NativeEnum (field : FieldDescriptorProto) : Prop :=
  field.repeated = false ∧ field.hasPresence = false ∧
    ∃ typeName ∈ field.type.enumName, (nativeWkt typeName).isSome = true

instance (field : FieldDescriptorProto) : Decidable (NativeEnum field) := by
  unfold NativeEnum
  infer_instance

/-! ## Map entries for the parser -/

/-- Collecting the fields of an entry keeps its name. -/
theorem foldl_addProto_name (fields : List FieldDescriptorProto) :
    ∀ st : NestedState, (fields.foldl NestedState.addProto st).name = st.name := by
  induction fields with
  | nil => exact fun st => rfl
  | cons field fields ih =>
      intro st
      rw [List.foldl_cons, ih]
      unfold NestedState.addProto
      split
      · rfl
      · split <;> rfl

/-- The parser records a nested type under its name when it is a map entry. -/
theorem DescriptorProto.entry_isSome (proto : DescriptorProto) :
    (∃ e, proto.entry = some e) ↔ proto.mapEntry = true := by
  unfold DescriptorProto.entry NestedState.entry
  dsimp only
  split <;> simp_all

/-- The parser records a map entry under its name. -/
theorem DescriptorProto.entry_name {proto : DescriptorProto} {e : String × MapEntry}
    (h : proto.entry = some e) : e.1 = proto.name := by
  unfold DescriptorProto.entry NestedState.entry at h
  dsimp only at h
  split at h
  · cases h
    exact foldl_addProto_name proto.field _
  · cases h

/-- The table of map entries has the names of the nested map entries. -/
theorem lookup_mapEntries (proto : DescriptorProto) (name : String) :
    (∃ e, proto.parts.mapEntries.lookup name = some e) ↔
      ∃ entry ∈ proto.nestedType, entry.mapEntry = true ∧ entry.name = name := by
  constructor
  · rintro ⟨e, he⟩
    obtain ⟨entry, hentry, heq⟩ :=
      List.mem_filterMap.mp (List.mem_reverse.mp (mem_of_lookup he))
    exact ⟨entry, hentry, entry.entry_isSome.mp ⟨_, heq⟩, (entry.entry_name heq).symm⟩
  · rintro ⟨entry, hentry, hmap, rfl⟩
    obtain ⟨e, he⟩ := entry.entry_isSome.mpr hmap
    have hmem : e ∈ proto.parts.mapEntries :=
      List.mem_reverse.mpr (List.mem_filterMap.mpr ⟨entry, hentry, he⟩)
    refine Option.ne_none_iff_exists'.mp fun hnone => ?_
    have := List.lookup_eq_none_iff.mp hnone e hmem
    rw [entry.entry_name he] at this
    simp at this

/-- What the parser takes for a map: a repeated message field whose type name ends in the names of
the message and of one of its map entries. -/
theorem FieldDescriptorProto.mapEntry_isSome (field : FieldDescriptorProto)
    (proto : DescriptorProto) :
    (∃ e, field.mapEntry proto.parts.mapEntries proto.name = some e) ↔
      field.repeated = true ∧ ∃ typeName ∈ field.type.messageName,
        parentSegment typeName = some proto.name ∧
        ∃ entry ∈ proto.nestedType, entry.mapEntry = true ∧ entry.name = shortName typeName := by
  unfold FieldDescriptorProto.mapEntry findMapEntry FieldDescriptorProto.raw
  cases field.type with
  | scalar _ => simp [ProtoType.isMessage, ProtoType.messageName]
  | enum _ => simp [ProtoType.isMessage, ProtoType.messageName]
  | message typeName =>
      have hlookup := lookup_mapEntries proto (shortName typeName)
      by_cases hparent : parentSegment typeName = some proto.name
      · simp [ProtoType.isMessage, ProtoType.typeName, ProtoType.messageName, hparent, ← hlookup]
      · simp [ProtoType.isMessage, ProtoType.typeName, ProtoType.messageName, hparent]

/-! ## The shape the parser gives a field -/

section Compile

variable {field : FieldDescriptorProto} {mapEntries : MapEntries} {msgName : String}

/-- A compiled field that is no map has the kind of its type. -/
theorem compile_kind (h : field.mapEntry mapEntries msgName = none) :
    (field.compile mapEntries msgName).kind = field.type.kind := by
  rw [FieldDescriptorProto.compile, h]

/-- The label of a compiled field that is no map. -/
theorem compile_label (h : field.mapEntry mapEntries msgName = none) :
    (field.compile mapEntries msgName).label =
      if field.repeated then .repeated
      else if field.type.kind.isMessageLike || field.hasPresence then .optional
      else .single := by
  rw [FieldDescriptorProto.compile, h]
  dsimp only
  unfold FieldDescriptorProto.hasPresence FieldDescriptorProto.realOneof
  cases field.proto3Optional <;> cases field.type.kind.isMessageLike <;> simp

/-- A map field is compiled to a map without a label of its own. -/
theorem compile_map {entry : MapEntry} (h : field.mapEntry mapEntries msgName = some entry) :
    (field.compile mapEntries msgName).kind.isMap = true ∧
      (field.compile mapEntries msgName).label = .single := by
  rw [FieldDescriptorProto.compile, h]
  exact ⟨rfl, rfl⟩

end Compile

/-- The type of a field is no map. -/
theorem ProtoType.kind_isMap (type : ProtoType) : type.kind.isMap = false := by
  cases type with
  | scalar _ => rfl
  | enum _ => rfl
  | message typeName =>
      simp only [ProtoType.kind]
      split
      · rfl
      · split <;> rfl

/-- Exactly the message types have values that are messages on the wire. -/
theorem ProtoType.kind_isMessageLike (type : ProtoType) :
    type.kind.isMessageLike = type.isMessage := by
  cases type with
  | scalar _ => rfl
  | enum _ => rfl
  | message typeName =>
      simp only [ProtoType.kind]
      split
      · rfl
      · split <;> rfl

/-- Dropping a oneof index leaves kind and label. -/
theorem clampOneof_shape (oneofs : List String) (compiled : FieldDescriptor) :
    (clampOneof oneofs compiled).kind = compiled.kind ∧
      (clampOneof oneofs compiled).label = compiled.label := by
  unfold clampOneof
  split
  · split <;> exact ⟨rfl, rfl⟩
  · exact ⟨rfl, rfl⟩

/-! ## The shape the renderer gives a field -/

section Valid

variable {files : List FileDescriptorProto} {file : FileDescriptorProto}
  {p : String × DescriptorProto} {field : FieldDescriptorProto}

/-- A field that the index takes for a map refers to a map entry of its own message. -/
theorem own_of_mapEntry (hvalid : ProtocValid files) (hfile : file ∈ files)
    (hp : p ∈ file.messages) (hfield : field ∈ p.2.field) {entry : DescriptorProto}
    (h : (TypeIndex.build files).mapEntry field = some entry) : OwnEntry p field := by
  obtain ⟨-, hmap, typeName, htype, info, hget, hinfo⟩ := TypeIndex.mapEntry_eq_some_iff.mp h
  obtain ⟨file', hfile', hq, -, -⟩ :=
    TypeIndex.message_of_mem_build (TypeIndex.mem_of_get hget) hinfo
  obtain ⟨-, hnested, hname⟩ := hvalid.entry_field hfile hfile' hp hq hfield hmap htype
  exact ⟨entry, hnested, hmap, by rw [htype, ← hname]⟩

/-- **A field that refers to a map entry of its own message** is repeated, and the index finds the
entry. -/
theorem mapEntry_of_own (hvalid : ProtocValid files) (hfile : file ∈ files)
    (hp : p ∈ file.messages) (hfield : field ∈ p.2.field) {entry : DescriptorProto}
    (hnested : entry ∈ p.2.nestedType) (hmap : entry.mapEntry = true)
    (htype : field.type = .message (p.1 ++ "." ++ entry.name)) :
    field.repeated = true ∧ (TypeIndex.build files).mapEntry field = some entry := by
  have hq := file.nested_mem hp hnested
  obtain ⟨hrep, -, -⟩ := hvalid.entry_field hfile hfile hp hq hfield hmap htype
  have hget := TypeIndex.get_of_mem hvalid.typeNames (TypeIndex.message_mem_build hfile hq)
  exact ⟨hrep, TypeIndex.mapEntry_eq_some_iff.mpr ⟨hrep, hmap, _, htype, _, hget, rfl⟩⟩

/-- **A map field is rendered as a `dict`** of what its entry holds. -/
theorem renderField_map (hvalid : ProtocValid files) (hfile : file ∈ files)
    (hp : p ∈ file.messages) (hfield : field ∈ p.2.field) (hown : OwnEntry p field) :
    ∃ entry ∈ p.2.nestedType, ∃ key value, entry.field = [key, value] ∧ IsKeyValue key value ∧
      field.type = .message (p.1 ++ "." ++ entry.name) ∧
      renderField (TypeIndex.build files) field = some
        ⟨field.name,
          .dict (elementAnnot (TypeIndex.build files) key.type)
            (elementAnnot (TypeIndex.build files) value.type),
          value.type.isNamed, .dictFactory⟩ := by
  obtain ⟨entry, hnested, hmap, htype⟩ := hown
  obtain ⟨-, hentry⟩ := mapEntry_of_own hvalid hfile hp hfield hnested hmap htype
  obtain ⟨⟨key, value⟩, hkv, hshape⟩ :=
    (hvalid.message hfile (file.nested_mem hp hnested)).entry hmap
  have hfields := keyValue_of_mem hkv
  dsimp only at hfields hshape
  have hkey : (entry.field.find? fun f => f.number == 1) = some key := by
    rw [hfields]
    simp [hshape.keyNumber]
  have hvalue : (entry.field.find? fun f => f.number == 2) = some value := by
    rw [hfields]
    simp [hshape.keyNumber, hshape.valueNumber]
  refine ⟨entry, hnested, key, value, hfields, hshape, htype, ?_⟩
  unfold renderField
  rw [hentry]
  dsimp only
  rw [hkey, hvalue]
  rfl

/-- The index finds no map entry for another field. -/
theorem mapEntry_eq_none (hvalid : ProtocValid files) (hfile : file ∈ files)
    (hp : p ∈ file.messages) (hfield : field ∈ p.2.field) (hown : ¬ OwnEntry p field) :
    (TypeIndex.build files).mapEntry field = none := by
  cases hentry : (TypeIndex.build files).mapEntry field with
  | none => rfl
  | some entry => exact absurd (own_of_mapEntry hvalid hfile hp hfield hentry) hown

/-- **What the parser takes for a map** is a map of the message, or is swallowed. -/
theorem mapEntry_parts (hvalid : ProtocValid files) (hfile : file ∈ files)
    (hp : p ∈ file.messages) (hfield : field ∈ p.2.field) :
    (∃ e, field.mapEntry p.2.parts.mapEntries p.2.name = some e) ↔
      OwnEntry p field ∨ Swallowed p field := by
  rw [field.mapEntry_isSome]
  constructor
  · rintro ⟨hrep, typeName, htype, hparent, entry, hnested, hmap, hname⟩
    by_cases heq : typeName = p.1 ++ "." ++ entry.name
    · exact .inl ⟨entry, hnested, hmap, heq ▸ ProtoType.mem_messageName.mp htype⟩
    · exact .inr ⟨hrep, typeName, htype, hparent, entry, hnested, hmap, hname, heq⟩
  · rintro (⟨entry, hnested, hmap, htype⟩ | ⟨hrep, typeName, htype, hparent, entry, hnested, hmap,
      hname, -⟩)
    · obtain ⟨hrep, -⟩ := mapEntry_of_own hvalid hfile hp hfield hnested hmap htype
      have hdot : ∀ q ∈ file.messages, '.' ∉ q.2.name.toList := fun q hq =>
        no_dot_of_isIdentifier (hvalid.message hfile hq).name
      have hlast := hdot _ (file.nested_mem hp hnested)
      obtain ⟨outer, houter⟩ := forest_name hp
      refine ⟨hrep, _, ProtoType.mem_messageName.mpr htype, ?_, entry, hnested, hmap,
        (shortName_append hlast).symm⟩
      rw [parentSegment_append hlast, houter, shortName_append (hdot p hp)]
    · exact ⟨hrep, typeName, htype, hparent, entry, hnested, hmap, hname⟩

/-- A repeated field that is no map is rendered as a `list`. -/
theorem renderField_list {index : TypeIndex} (hentry : index.mapEntry field = none)
    (hrep : field.repeated = true) : renderField index field = some
      ⟨field.name, .list (elementAnnot index field.type), field.type.isNamed,
        .listFactory⟩ := by
  unfold renderField
  rw [hentry]
  dsimp only
  rw [if_pos hrep]

/-- A field that is neither a map nor repeated is rendered as a singular one. -/
theorem renderField_singular {index : TypeIndex} (hrep : field.repeated = false) :
    renderField index field = some (renderSingularField index field) := by
  have hentry : index.mapEntry field = none := by
    unfold TypeIndex.mapEntry
    rw [hrep]
    rfl
  unfold renderField
  rw [hentry]
  dsimp only
  rw [hrep]
  rfl

/-- **A singular field is rendered as `T | None`** when it is a message or has presence, or when its
type has the name of a native well-known type, and with a zero value otherwise. -/
theorem renderSingularField_shape (index : TypeIndex) (field : FieldDescriptorProto) :
    if field.type.isMessage || field.hasPresence
        || (field.type.typeName.bind nativeWkt).isSome then
      (∃ type, (renderSingularField index field).annot = .optional type) ∧
        (renderSingularField index field).default = .pyNone
    else (∀ type, (renderSingularField index field).annot ≠ .optional type) ∧
      (∀ type, (renderSingularField index field).annot ≠ .list type) ∧
      (∀ key value, (renderSingularField index field).annot ≠ .dict key value) ∧
      (renderSingularField index field).default.isZero = true := by
  unfold renderSingularField renderEnumField
  cases hnative : field.type.typeName.bind nativeWkt with
  | some native => simp
  | none =>
      cases field.type with
      | message typeName => simp [ProtoType.isMessage]
      | scalar scalar =>
          cases hpresence : field.hasPresence <;>
            simp [ProtoType.isMessage, DefaultExpr.isZero]
      | enum typeName =>
          cases hpresence : field.hasPresence <;>
            cases hnested : isNestedPath (index.qualified typeName) <;>
              simp [ProtoType.isMessage, DefaultExpr.isZero, hnested]

/-! ## Agreement -/

/-- A line with a map and a compiled map. -/
theorem sameShape_dict {line : FieldLine} {compiled : FieldDescriptor} {key value : TypeExpr}
    (hline : line.annot = .dict key value) (hdefault : line.default = .dictFactory)
    (hkind : compiled.kind.isMap = true) (hlabel : compiled.label = .single) :
    SameShape line compiled := by
  refine ⟨?_, ?_, ?_, ?_⟩ <;> simp [hline, hdefault, hkind, hlabel, DefaultExpr.isZero]

/-- A line with a list and a compiled repeated field. -/
theorem sameShape_list {line : FieldLine} {compiled : FieldDescriptor} {element : TypeExpr}
    (hline : line.annot = .list element) (hdefault : line.default = .listFactory)
    (hkind : compiled.kind.isMap = false) (hlabel : compiled.label = .repeated) :
    SameShape line compiled := by
  refine ⟨?_, ?_, ?_, ?_⟩ <;> simp [hline, hdefault, hkind, hlabel, DefaultExpr.isZero]

/-- **The two shapes of a singular field agree** when the parser finds presence exactly where the
renderer does. -/
theorem sameShape_singular (index : TypeIndex) {field : FieldDescriptorProto}
    {compiled : FieldDescriptor} (hkind : compiled.kind.isMap = false)
    (hlabel : compiled.label =
      if field.type.isMessage || field.hasPresence then .optional else .single) :
    SameShape (renderSingularField index field) compiled ↔
      ((field.type.typeName.bind nativeWkt).isSome = true →
        field.type.isMessage = true ∨ field.hasPresence = true) := by
  have hshape := renderSingularField_shape index field
  by_cases hpresence : (field.type.isMessage || field.hasPresence) = true
  · rw [hpresence, Bool.true_or, if_pos rfl] at hshape
    rw [if_pos hpresence] at hlabel
    obtain ⟨⟨type, htype⟩, hdefault⟩ := hshape
    refine iff_of_true ?_ fun _ => by simpa using hpresence
    refine ⟨?_, ?_, ?_, ?_⟩ <;> simp [htype, hdefault, hkind, hlabel, DefaultExpr.isZero]
  · rw [Bool.eq_false_iff.mpr hpresence, Bool.false_or] at hshape
    rw [if_neg hpresence] at hlabel
    by_cases hnative : (field.type.typeName.bind nativeWkt).isSome = true
    · -- the renderer sees a native type where the parser sees an enum without presence
      rw [if_pos hnative] at hshape
      obtain ⟨⟨type, htype⟩, hdefault⟩ := hshape
      refine iff_of_false (fun h => ?_) fun h => hpresence (by simpa using h hnative)
      have := h.optional.mp ⟨⟨type, htype⟩, hdefault⟩
      rw [hlabel] at this
      cases this
    · rw [if_neg hnative] at hshape
      obtain ⟨hopt, hlist, hdict, hzero⟩ := hshape
      refine iff_of_true ?_ fun h => absurd h hnative
      refine ⟨?_, ?_, ?_, ?_⟩ <;> simp [hopt, hlist, hdict, hzero, hkind, hlabel]

/-- An enum that hides a native type is a singular field without presence. -/
theorem nativeEnum_iff {field : FieldDescriptorProto} (hrep : field.repeated = false) :
    ¬ NativeEnum field ↔ ((field.type.typeName.bind nativeWkt).isSome = true →
      field.type.isMessage = true ∨ field.hasPresence = true) := by
  unfold NativeEnum
  cases field.type with
  | scalar _ => simp [ProtoType.typeName, ProtoType.enumName]
  | message _ => simp [ProtoType.isMessage, ProtoType.enumName]
  | enum typeName =>
      cases field.hasPresence <;>
        simp [ProtoType.typeName, ProtoType.isMessage, ProtoType.enumName, hrep]

/-- **The renderer and the parser agree on a field** exactly when it is not swallowed and its enum
does not hide a native type. -/
theorem agrees_iff (hvalid : ProtocValid files) (hfile : file ∈ files) (hp : p ∈ file.messages)
    (hfield : field ∈ p.2.field) (oneofs : List String) :
    (∃ line, renderField (TypeIndex.build files) field = some line ∧
        SameShape line
          (clampOneof oneofs (field.compile p.2.parts.mapEntries p.2.name)) ∧
        ((clampOneof oneofs (field.compile p.2.parts.mapEntries p.2.name)).kind.isMap = true ↔
          OwnEntry p field)) ↔
      ¬ Swallowed p field ∧ ¬ NativeEnum field := by
  obtain ⟨hkind, hlabel⟩ :=
    clampOneof_shape oneofs (field.compile p.2.parts.mapEntries p.2.name)
  have hparts := mapEntry_parts hvalid hfile hp hfield
  by_cases hown : OwnEntry p field
  · -- a map of the message, for both
    obtain ⟨e, he⟩ := hparts.mpr (.inl hown)
    obtain ⟨hmap, hsingle⟩ := compile_map he
    obtain ⟨entry, hnested, key, value, -, -, htype, hline⟩ :=
      renderField_map hvalid hfile hp hfield hown
    refine iff_of_true ⟨_, hline, sameShape_dict rfl rfl (hkind ▸ hmap) (hlabel ▸ hsingle),
      iff_of_true (hkind ▸ hmap) hown⟩ ⟨?_, ?_⟩
    · rintro ⟨-, typeName, htype', -, entry', -, -, hname, hne⟩
      rw [ProtoType.mem_messageName, htype, ProtoType.message.injEq] at htype'
      have hlast := no_dot_of_isIdentifier
        (hvalid.message hfile (file.nested_mem hp hnested)).name
      rw [← htype', shortName_append hlast] at hname
      exact hne (by rw [← htype', hname])
    · rintro ⟨-, -, typeName, htype', -⟩
      rw [ProtoType.mem_enumName, htype] at htype'
      cases htype'
  · by_cases hswallowed : Swallowed p field
    · -- the parser alone sees a map
      obtain ⟨e, he⟩ := hparts.mpr (.inr hswallowed)
      refine iff_of_false ?_ fun h => h.1 hswallowed
      rintro ⟨line, -, -, hiff⟩
      exact hown (hiff.mp (hkind ▸ (compile_map he).1))
    · have hnone : field.mapEntry p.2.parts.mapEntries p.2.name = none := by
        cases he : field.mapEntry p.2.parts.mapEntries p.2.name with
        | none => rfl
        | some e => exact absurd (hparts.mp ⟨e, he⟩) (by simp [hown, hswallowed])
      have hmap : (clampOneof oneofs
          (field.compile p.2.parts.mapEntries p.2.name)).kind.isMap = false := by
        rw [hkind, compile_kind hnone, ProtoType.kind_isMap]
      rw [compile_label hnone] at hlabel
      have hmapIff : ((clampOneof oneofs
          (field.compile p.2.parts.mapEntries p.2.name)).kind.isMap = true ↔ OwnEntry p field) :=
        iff_of_false (by simp [hmap]) hown
      cases hrep : field.repeated with
      | true =>
          rw [hrep, if_pos rfl] at hlabel
          have hline := renderField_list (mapEntry_eq_none hvalid hfile hp hfield hown) hrep
          refine iff_of_true ⟨_, hline, sameShape_list rfl rfl hmap hlabel, hmapIff⟩
            ⟨hswallowed, fun h => ?_⟩
          rw [NativeEnum, hrep] at h
          cases h.1
      | false =>
          rw [hrep, if_neg (by decide), ProtoType.kind_isMessageLike] at hlabel
          rw [nativeEnum_iff hrep, ← sameShape_singular (TypeIndex.build files) hmap hlabel]
          constructor
          · rintro ⟨line, hline, hsame, -⟩
            rw [renderField_singular hrep, Option.some.injEq] at hline
            exact ⟨hswallowed, hline ▸ hsame⟩
          · rintro ⟨-, hsame⟩
            exact ⟨_, renderField_singular hrep, hsame, hmapIff⟩

end Valid

/-- **The code generator and the parser classify alike** exactly the schemas that have no field
swallowed by the parser and no enum that hides a native type. -/
theorem classifiesAlike_iff {files : List FileDescriptorProto} (hvalid : ProtocValid files) :
    ClassifiesAlike files ↔ ∀ file ∈ files, ∀ p ∈ file.allMessages, ∀ field ∈ p.2.field,
      ¬ Swallowed p field ∧ ¬ NativeEnum field := by
  refine forall₂_congr fun file hfile => forall₂_congr fun p hp => ?_
  have hmem := (file.mem_messages hp).1
  have hparse := p.2.parseMessage_bytes
    (Nat.lt_of_lt_of_le (hvalid.message hfile hmem).size (by decide))
  -- the parser and the renderer go through the fields in the same order
  have hget : ∀ (i : Nat) (field : FieldDescriptorProto), p.2.field[i]? = some field →
      p.2.compiled.fields[i]? = some (clampOneof (p.2.oneofDecl.map (·.name))
        (field.compile p.2.parts.mapEntries p.2.name)) := by
    intro i field hi
    rw [DescriptorProto.compiled, List.getElem?_map, hi, Option.map_some]
  constructor
  · rintro ⟨desc, hdesc, -, hfields⟩ field hfield
    rw [hparse, Except.ok.injEq] at hdesc
    subst hdesc
    obtain ⟨i, hi⟩ := List.mem_iff_getElem?.mp hfield
    obtain ⟨line, compiled, hline, hcompiled, hsame, hmap⟩ := hfields i field hi
    rw [hget i field hi, Option.some.injEq] at hcompiled
    subst hcompiled
    exact (agrees_iff hvalid hfile hmem hfield _).mp ⟨line, hline, hsame, hmap⟩
  · intro h
    refine ⟨p.2.compiled, hparse, by simp [DescriptorProto.compiled], fun i field hi => ?_⟩
    have hfield := List.mem_of_getElem? hi
    obtain ⟨line, hline, hsame, hmap⟩ :=
      (agrees_iff hvalid hfile hmem hfield (p.2.oneofDecl.map (·.name))).mpr (h field hfield)
    exact ⟨line, _, hline, hget i field hi, hsame, hmap⟩

/-! ## A swallowed field -/

/-- The map entry of `map<string, int32> data`. -/
def dataEntry : DescriptorProto where
  name := "DataEntry"
  field := [{ name := "key", number := 1, type := .scalar .string },
    { name := "value", number := 2, type := .scalar .int32 }]
  options := some { mapEntry := true }

/-- `message M { map<string, int32> data = 1; repeated element xs = 2; }` beside
`message Outer { message M { message DataEntry { int32 v = 1; } } }`. -/
def dataFiles (element : String) : List FileDescriptorProto :=
  [{ name := "data.proto"
     messageType := [
      { name := "M"
        field := [
          { name := "data", number := 1, repeated := true, type := .message ".M.DataEntry" },
          { name := "xs", number := 2, repeated := true, type := .message element }]
        nestedType := [dataEntry] },
      { name := "Outer"
        nestedType := [
          { name := "M"
            nestedType := [
              { name := "DataEntry"
                field := [{ name := "v", number := 1, type := .scalar .int32 }] }] }] }] }]

set_option maxRecDepth 20000 in
/-- A repeated field of a message that shares the short name of the map entry alone. -/
theorem classifiesAlike_dataFiles : ClassifiesAlike (dataFiles ".Outer.M") :=
  (@classifiesAlike_iff (dataFiles ".Outer.M") (by decide)).mpr (by decide)

set_option maxRecDepth 20000 in
/-- **A repeated field of another message type is swallowed as a map**: its type shares the last two
segments of its full name with a map entry of the message. -/
theorem dataFiles_swallowed : ProtocValid (dataFiles ".Outer.M.DataEntry") ∧
    ¬ ClassifiesAlike (dataFiles ".Outer.M.DataEntry") := by
  have hvalid : ProtocValid (dataFiles ".Outer.M.DataEntry") := by decide
  refine ⟨hvalid, fun h => ?_⟩
  obtain ⟨desc, hdesc, -, hfields⟩ := h _ List.mem_cons_self _ List.mem_cons_self
  rw [DescriptorProto.parseMessage_bytes _ (by decide), Except.ok.injEq] at hdesc
  subst hdesc
  obtain ⟨line, compiled, hline, hcompiled, hsame, -⟩ := hfields 1 _ rfl
  cases hline
  cases hcompiled
  -- the renderer writes a list, the parser compiles a map
  have hlist := hsame.list.mp ⟨_, rfl⟩
  cases hlist

end FastProto
