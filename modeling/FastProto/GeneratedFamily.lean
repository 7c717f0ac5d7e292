import FastProto.LinkedModules

/-! # The classes of sound modules

The classes of sound modules are a family of generated message classes, and linking them is the graph
that the proofs about `_ensure_linked` start from. So what holds of the codec and of linking holds of
the classes that the plugin generates. -/

namespace FastProto

open Lib

/-! ## Kinds of types -/

/-- What refers to a message or an enum needs a reference. -/
theorem FieldKind.needsRef_of_refers {kind : FieldKind}
    (h : kind.refersToMessage = true ∨ kind.refersToEnum = true) : kind.needsRef = true := by
  cases kind with
  | map key value => cases value <;> first | rfl | (rcases h with h | h <;> cases h)
  | message | enum => rfl
  | scalar | timestamp | duration => rcases h with h | h <;> cases h

/-- A type refers to the same as the value of a map and by itself. -/
theorem ProtoType.refersTo_mapValue (type : ProtoType) (key : ScalarType) :
    (FieldKind.map key type.mapValue).refersToMessage = type.kind.refersToMessage ∧
      (FieldKind.map key type.mapValue).refersToEnum = type.kind.refersToEnum := by
  cases type with
  | scalar s => exact ⟨rfl, rfl⟩
  | enum typeName => exact ⟨rfl, rfl⟩
  | message typeName =>
      unfold ProtoType.mapValue ProtoType.kind
      dsimp only
      split
      · exact ⟨rfl, rfl⟩
      · split <;> exact ⟨rfl, rfl⟩

/-- Only message types refer to messages, by their full names. -/
theorem ProtoType.message_of_refersTo {type : ProtoType} (h : type.kind.refersToMessage = true) :
    ∃ typeName, type = .message typeName ∧ type.className = some (fullName typeName) := by
  cases type with
  | scalar s => cases h
  | enum typeName => cases h
  | message typeName =>
      refine ⟨typeName, rfl, ?_⟩
      unfold ProtoType.kind at h
      dsimp only at h
      split at h
      · cases h
      · split at h
        · cases h
        · rename_i htimestamp hduration
          rw [ProtoType.className, if_neg (not_or.mpr ⟨htimestamp, hduration⟩)]

/-- Only enum types refer to enums. -/
theorem ProtoType.enum_of_refersTo {type : ProtoType} (h : type.kind.refersToEnum = true) :
    ∃ typeName, type = .enum typeName := by
  cases type with
  | scalar s => cases h
  | enum typeName => exact ⟨typeName, rfl⟩
  | message typeName =>
      unfold ProtoType.kind at h
      dsimp only at h
      split at h
      · cases h
      · split at h <;> cases h

namespace ModuleSet

variable {M : ModuleSet} {py : PythonNames} {ids : ObjectIds M} {file other : FileDescriptorProto}
  {p q : String × DescriptorProto} {field : FieldDescriptorProto} {full : String}

/-! ## What names stand for -/

/-- A message that can be resolved is one of a loaded module. -/
theorem loaded_message (hvalid : ProtocValid M.files) (hloaded : M.Loaded) (hfile : file ∈ M.loaded)
    (hq : q ∈ messagesOf M.files) (hmap : q.2.mapEntry = false)
    (h : M.Resolvable py file (fullName q.1)) : ∃ other ∈ M.loaded, q ∈ other.allMessages := by
  obtain ⟨other, hother, top, hcontains, hvisible, -⟩ := h
  rw [dot_message hq] at hcontains
  obtain ⟨file', hfile', hq⟩ := List.mem_flatMap.mp hq
  obtain ⟨definer, hdefiner, hname, top', hcontains'⟩ :=
    contains_of_indexed (TypeIndex.message_mem_build hfile' hq)
  obtain rfl := List.inj_on_of_nodup_map hvalid.fileNames hdefiner hfile' hname
  obtain ⟨rfl, -⟩ := contains_unique hvalid hother hdefiner hcontains hcontains'
  exact ⟨other, loaded_of_visible hvalid hloaded hfile hother hvisible,
    hvalid.mem_allMessages hother hq hmap⟩

/-- An enum that can be resolved is one of a loaded module. -/
theorem loaded_enum (hvalid : ProtocValid M.files) (hloaded : M.Loaded) (hfile : file ∈ M.loaded)
    (hfull : full ∈ (enumsOf M.files).map Prod.fst) (h : M.Resolvable py file (fullName full)) :
    full ∈ (enumsOf M.loaded).map Prod.fst := by
  obtain ⟨other, hother, top, hcontains, hvisible, -⟩ := h
  rw [dot_enum hfull] at hcontains
  have hmem := loaded_of_visible hvalid hloaded hfile hother hvisible
  obtain ⟨definer, hdefiner, ⟨enum, henum, rfl⟩ | ⟨root, hroot, p, hp, enum, henum, rfl⟩⟩ :=
    enum_site hvalid hfull
  · obtain ⟨rfl, -⟩ := contains_unique hvalid hother hdefiner hcontains (.enum henum rfl)
    exact List.mem_map.mpr ⟨_, List.mem_flatMap.mpr ⟨other, hmem,
      List.mem_append_left _ (List.mem_map_of_mem henum)⟩, rfl⟩
  · obtain ⟨rfl, -⟩ := contains_unique hvalid hother hdefiner hcontains
      (.nestedEnum hroot rfl ((tree_sublist (fun _ _ => rfl) _ _).subset hp) henum)
    refine List.mem_map.mpr ⟨(p.1 ++ "." ++ enum.name, enum), List.mem_flatMap.mpr ⟨other, hmem,
      List.mem_append_right _ (List.mem_flatMap.mpr ⟨p, ?_, List.mem_map_of_mem henum⟩)⟩, rfl⟩
    exact (FileDescriptorProto.mem_messages
      (FileDescriptorProto.mem_allMessages_of_tree hroot hp)).1

/-- **The class of an enum** of a loaded module has no descriptor and the members of the enum. -/
theorem pyClass_enum (hvalid : ProtocValid M.files) (hloaded : M.Loaded)
    (hfull : full ∈ (enumsOf M.loaded).map Prod.fst) :
    M.pyClass (M.idOf full) = { enum := some { values := M.members full } } := by
  obtain ⟨e, he, rfl⟩ := List.mem_map.mp hfull
  have hindex : e.1 ∈ M.index.map Prod.fst := by
    obtain ⟨file, hfile, he⟩ := List.mem_flatMap.mp he
    obtain ⟨info, hinfo, -⟩ := enum_mem_build (hloaded.files file hfile) he
    exact List.mem_map_of_mem hinfo
  have hnone : (M.loaded.flatMap M.moduleClasses).lookup (M.idOf e.1) = none := by
    refine lookup_eq_none_iff_not_mem.mpr fun hmem => ?_
    obtain ⟨⟨id, cls⟩, hcls, hid⟩ := List.mem_map.mp hmem
    obtain ⟨file, hfile, hcls⟩ := List.mem_flatMap.mp hcls
    obtain ⟨q, hq, -, hid', -⟩ := exists_of_mem_moduleClasses hcls
    have hname : e.1 = q.1 := (idOf_inj hindex).mp (hid.symm.trans hid')
    obtain ⟨definer, hdefiner, he⟩ := List.mem_flatMap.mp he
    exact message_ne_enum hvalid (List.mem_flatMap.mpr
      ⟨file, hloaded.files file hfile, (FileDescriptorProto.mem_messages hq).1⟩)
      (List.mem_flatMap.mpr ⟨definer, hloaded.files definer hdefiner, he⟩) hname.symm
  have hlookup : M.enumClasses.lookup (M.idOf e.1) = some { values := M.members e.1 } := by
    have hmem : (M.idOf e.1, ({ values := M.members e.1 } : EnumClass)) ∈ M.enumClasses :=
      List.mem_map.mpr ⟨e, he, rfl⟩
    cases hfound : M.enumClasses.lookup (M.idOf e.1) with
    | none => exact absurd (List.mem_map_of_mem hmem) (lookup_eq_none_iff_not_mem.mp hfound)
    | some enum =>
        obtain ⟨e', -, heq⟩ := List.mem_map.mp (mem_of_lookup hfound)
        obtain ⟨hid, rfl⟩ := Prod.mk.inj heq
        rw [(idOf_inj hindex).mp hid.symm]
  rw [pyClass, hnone, hlookup]

/-! ## Linked descriptors -/

section Linked

variable (hvalid : ProtocValid M.files) (hnumbers : ValidNumbers M.files) (hloaded : M.Loaded)
  (hfile : file ∈ M.loaded) (hsound : M.Sound py file) (hp : p ∈ file.allMessages)
include hvalid hnumbers hloaded hfile hsound hp

/-- **Linking a class** stores the classes of the types that its fields refer to. -/
theorem linkOwn_program : ∃ targets, (M.program py ids).linkOwn (M.idOf p.1)
      ((M.program py ids).compiled (M.idOf p.1)) = .ok ({
        inner := p.2.compiled
        refs := some ((M.program py ids).linkRefs
          (p.2.compiled.refFields.map fun r => (r.1, M.idOf ("." ++ r.2))))
        linked := true
        fastInit := (M.program py ids).fastInit (M.idOf p.1) p.2.compiled }, targets) := by
  have hcompiled : (M.program py ids).compiled (M.idOf p.1) = { inner := p.2.compiled } := by
    unfold Program.compiled
    rw [inner_eq hvalid hloaded hfile hp (hsound.bound p hp)]
  rw [hcompiled]
  exact ⟨_, Program.linkOwn_eq_ok.mpr
    ⟨_, resolved_program hvalid hnumbers hloaded hfile hsound hp, rfl, rfl⟩⟩

/-- The descriptor of a class, linked. -/
theorem linkedDescriptors_eq : M.linkedDescriptors py ids (M.idOf p.1) = {
    inner := p.2.compiled
    refs := some ((M.program py ids).linkRefs
      (p.2.compiled.refFields.map fun r => (r.1, M.idOf ("." ++ r.2))))
    linked := true
    fastInit := (M.program py ids).fastInit (M.idOf p.1) p.2.compiled } := by
  obtain ⟨targets, hlink⟩ :=
    @linkOwn_program _ py ids _ _ hvalid hnumbers hloaded hfile hsound hp
  rw [linkedDescriptors, hlink]

/-- Linking does not change what was compiled. -/
theorem inner_linked : (M.linkedDescriptors py ids (M.idOf p.1)).inner = p.2.compiled := by
  rw [linkedDescriptors_eq hvalid hnumbers hloaded hfile hsound hp]

/-- **The class linked for a field** is that of the type the field keeps. -/
theorem ref_linked {compiled : FieldDescriptor} (hfield : compiled ∈ p.2.compiled.fields)
    (hneeds : compiled.kind.needsRef = true) {name : String} (hname : compiled.typeName = some name) :
    (M.linkedDescriptors py ids (M.idOf p.1)).ref compiled.number
      = some (buildLinkedRef (M.idOf ("." ++ name)) (M.pyClass (M.idOf ("." ++ name)))) := by
  have hmem : (compiled.number, name) ∈ p.2.compiled.refFields :=
    List.mem_filterMap.mpr ⟨compiled, hfield, by rw [if_pos hneeds, hname]; rfl⟩
  have hkeys :
      ((p.2.compiled.refFields.map fun r => (r.1, M.idOf ("." ++ r.2))).map Prod.fst).Nodup := by
    have hnodup := (hnumbers p (List.mem_flatMap.mpr ⟨file, hloaded.files file hfile,
      (FileDescriptorProto.mem_messages hp).1⟩)).1
    rw [← (compiled_fields p.2).1] at hnodup
    rw [List.map_map]
    exact nodup_refFields hnodup
  rw [linkedDescriptors_eq hvalid hnumbers hloaded hfile hsound hp, Descriptor.ref, Option.bind_some,
    Program.lookup_linkRefs, lookup_of_mem hkeys (List.mem_map.mpr ⟨_, hmem, rfl⟩)]
  rfl

end Linked

/-! ## Dataclass entries -/

/-- The zero value of a field that is no map depends on its label. -/
theorem zeroValue_of_label {desc : Descriptor} {compiled : FieldDescriptor}
    (hmap : compiled.kind.isMap = false) :
    (compiled.label = .repeated → zeroValue desc compiled = .list []) ∧
      (compiled.label = .optional → zeroValue desc compiled = .pyNone) := by
  constructor <;> intro hlabel <;> unfold zeroValue <;> rw [hlabel] <;>
    cases hkind : compiled.kind <;> first | rfl | (rw [hkind] at hmap; cases hmap)

/-- The zero value does not depend on the oneof of a field. -/
theorem zeroValue_clampOneof (desc : Descriptor) (oneofs : List String) (compiled : FieldDescriptor) :
    zeroValue desc (clampOneof oneofs compiled) = zeroValue desc compiled := by
  unfold zeroValue
  rw [(clampOneof_shape oneofs compiled).1, (clampOneof_shape oneofs compiled).2,
    (clampOneof_keeps oneofs compiled).1]

/-- **A singular field without presence** has the literal of its scalar type, or the zero of its
enum. -/
theorem default_singular (hrep : field.repeated = false) (hnative : ¬ NativeEnum field)
    (hoptional : (field.type.isMessage || field.hasPresence) ≠ true) (index : TypeIndex) :
    (∃ s, field.type = .scalar s ∧ (renderSingularField index field).default = .literal s) ∨
      ∃ typeName, field.type = .enum typeName ∧
        ((renderSingularField index field).default = .enumFactory (index.qualified typeName) ∨
          (renderSingularField index field).default = .enumZero (index.qualified typeName)) := by
  rw [Ne, Bool.not_eq_true, Bool.or_eq_false_iff] at hoptional
  obtain ⟨hmessage, hpresence⟩ := hoptional
  cases htype : field.type with
  | scalar s =>
      refine .inl ⟨s, rfl, ?_⟩
      unfold renderSingularField
      rw [htype, hpresence]
      rfl
  | message typeName =>
      rw [htype] at hmessage
      cases hmessage
  | enum typeName =>
      have hwkt : nativeWkt typeName = none := by
        rw [← Option.not_isSome_iff_eq_none]
        exact fun hsome => hnative
          ⟨hrep, hpresence, typeName, ProtoType.mem_enumName.mpr htype, hsome⟩
      refine .inr ⟨typeName, rfl, ?_⟩
      unfold renderSingularField renderEnumField
      rw [htype]
      dsimp only [ProtoType.typeName, Option.bind_some]
      rw [hwkt, hpresence]
      dsimp only
      by_cases hnested : isNestedPath (index.qualified typeName) = true
      · exact .inl (by rw [if_neg (by decide), if_pos hnested])
      · exact .inr (by rw [if_neg (by decide), if_neg hnested])

/-- The entry holds a value as its default, or makes it. -/
def Defaults (entry : DataField) (value : PyVal) : Prop :=
  entry.default = some value ∨
    entry.default = none ∧
      ∃ factory, entry.defaultFactory = some factory ∧ factory.make = .ok value

section Entries

variable (hvalid : ProtocValid M.files) (hnumbers : ValidNumbers M.files) (hloaded : M.Loaded)
  (hfile : file ∈ M.loaded) (hsound : M.Sound py file)
include hvalid hloaded hfile hsound

/-- **The default of an enum field** is the zero of its enum. -/
theorem enumZero_of_event {fr : Lib.Frame Obj} {line : FieldLine}
    (hevent : (fr, .field field line) ∈ M.events file) (htype : field.type = .enum full) :
    (∀ qualified, line.default = .enumZero qualified →
      M.enumZero (M.eager fr) qualified = .member (M.idOf full) 0) ∧
    ∀ qualified, line.default = .enumFactory qualified →
      M.enumZero (M.deferred file fr.cls) qualified = .member (M.idOf full) 0 := by
  have hfiles := hloaded.files file hfile
  obtain ⟨imported, himported, -⟩ := hloaded.imports file hfile
  constructor <;> intro qualified hdefault
  · have hread : (fr, full, qualified) ∈ (Stmt.field field line).enumReads fr := by
      unfold Stmt.enumReads
      dsimp only
      rw [hdefault, htype]
      simp [ProtoType.enumName]
    have hpath := (enums_iff hvalid hfiles himported).mpr hsound.unshadowed.enums _ hevent _ hread
    dsimp only at hpath
    rw [enumZero, hpath]
  · have hread : (full, qualified) ∈ (Stmt.field field line).lambdaReads := by
      unfold Stmt.lambdaReads
      dsimp only
      rw [hdefault, htype]
      simp [ProtoType.enumName]
    have hpath := (lambdas_iff hvalid hfiles himported).mpr hsound.unshadowed.lambdas _ hevent _ hread
    dsimp only at hpath
    rw [enumZero, hpath]

/-- **A builtin that a default reads as its factory** is the builtin. -/
theorem read_factory {fr : Lib.Frame Obj} {line : FieldLine}
    (hevent : (fr, .field field line) ∈ M.events file) {name : String}
    (hname : name ∈ line.default.infra) :
    fr.read pythonBuiltins name = some (infraObj name) := by
  obtain ⟨imported, himported, -⟩ := hloaded.imports file hfile
  -- the name is not shadowed in the class body, by soundness
  have hinfra := (infra_iff hvalid (hloaded.files file hfile) (hloaded.accepted file hfile)
    himported).mpr
    ⟨hsound.unshadowed.classes, hsound.unshadowed.intEnum, hsound.unshadowed.fields⟩
  refine hinfra _ hevent (fr, name) (List.mem_append_left _ ?_)
  exact List.mem_map_of_mem hname

include hnumbers

/-- **The zero value of an enum field** is the zero of the class that its type resolves to. -/
theorem zeroValue_enum (hp : p ∈ file.allMessages) (hfield : field ∈ p.2.field)
    (htype : field.type = .enum full) (hentry : field.mapEntry p.2.parts.mapEntries p.2.name = none)
    (hsingle : (field.compile p.2.parts.mapEntries p.2.name).label = .single) :
    zeroValue (M.linkedDescriptors py ids (M.idOf p.1)) (field.compile p.2.parts.mapEntries p.2.name)
      = .member (M.idOf full) 0 := by
  have hmem := (hvalid.message (hloaded.files file hfile)
    (FileDescriptorProto.mem_messages hp).1).enumRefs field hfield full
    (ProtoType.mem_enumName.mpr htype)
  have hkind : (field.compile p.2.parts.mapEntries p.2.name).kind = .enum := by
    rw [compile_kind hentry, htype]
    rfl
  have hname : (field.compile p.2.parts.mapEntries p.2.name).typeName = some (fullName full) := by
    rw [FieldDescriptorProto.compile, hentry, htype]
    rfl
  have href := @ref_linked M py ids file p hvalid hnumbers hloaded hfile hsound hp
    (clampOneof (p.2.oneofDecl.map (·.name)) (field.compile p.2.parts.mapEntries p.2.name))
    (List.mem_map_of_mem hfield) (by rw [(clampOneof_shape _ _).1, hkind]; rfl) (fullName full)
    (by rw [(clampOneof_keeps _ _).2.2, hname])
  rw [(clampOneof_keeps _ _).1, dot_enum hmem] at href
  unfold zeroValue
  rw [hkind, hsingle, href]
  dsimp only
  rw [buildLinkedRef_cls]

/-- The entry of a singular field has the zero value of the compiled field. -/
theorem defaults_singular (hp : p ∈ file.allMessages) (hfield : field ∈ p.2.field)
    (hrep : field.repeated = false) (hnative : ¬ NativeEnum field)
    (hentry : field.mapEntry p.2.parts.mapEntries p.2.name = none) {fr : Lib.Frame Obj}
    (hevent : (fr, .field field (renderSingularField M.index field)) ∈ M.events file) :
    Defaults (M.dataField file field.name fr (renderSingularField M.index field))
      (zeroValue (M.linkedDescriptors py ids (M.idOf p.1))
        (field.compile p.2.parts.mapEntries p.2.name)) := by
  have hkind := compile_kind hentry
  have hlabel := compile_label hentry
  rw [if_neg (by rw [hrep]; decide), field.type.kind_isMessageLike] at hlabel
  by_cases hoptional : (field.type.isMessage || field.hasPresence) = true
  · -- the field is `None`
    have hshape := renderSingularField_shape M.index field
    rw [hoptional, Bool.true_or, if_pos rfl] at hshape
    rw [if_pos hoptional] at hlabel
    rw [(zeroValue_of_label (by rw [hkind]; exact field.type.kind_isMap)).2 hlabel]
    refine .inl ?_
    unfold dataField
    rw [hshape.2]
  · rw [if_neg hoptional] at hlabel
    obtain ⟨s, htype, hdefault⟩ | ⟨typeName, htype, hdefault⟩ :=
      default_singular hrep hnative hoptional M.index
    · refine .inl ?_
      unfold dataField zeroValue
      rw [hdefault, hkind, hlabel, htype]
      rfl
    · rw [zeroValue_enum hvalid hnumbers hloaded hfile hsound hp hfield htype hentry hlabel]
      obtain ⟨heager, hdeferred⟩ := enumZero_of_event hvalid hloaded hfile hsound hevent htype
      rcases hdefault with hdefault | hdefault
      · refine .inr ?_
        unfold dataField
        rw [hdefault]
        exact ⟨rfl, _, rfl, congrArg Except.ok (hdeferred _ hdefault)⟩
      · refine .inl ?_
        unfold dataField
        rw [hdefault]
        exact congrArg some (heager _ hdefault)

/-- **The dataclass entry of a field** has the zero value of the compiled field. -/
theorem generatedField (hp : p ∈ file.allMessages) (hfield : field ∈ p.2.field) {fr : Lib.Frame Obj}
    {line : FieldLine} (hrender : renderField M.index field = some line)
    (hevent : (fr, .field field line) ∈ M.events file) :
    GeneratedField (M.linkedDescriptors py ids (M.idOf p.1)) (M.dataField file field.name fr line)
      (clampOneof (p.2.oneofDecl.map (·.name))
        (field.compile p.2.parts.mapEntries p.2.name)) := by
  have hfiles := hloaded.files file hfile
  have hmessage := (FileDescriptorProto.mem_messages hp).1
  obtain ⟨hswallowed, hnative⟩ := hsound.alike p hp field hfield
  have hplain : (M.dataField file field.name fr line).name = field.name ∧
      (M.dataField file field.name fr line).init = true ∧
      (M.dataField file field.name fr line).fieldType = .regular := by
    unfold dataField
    split <;> exact ⟨rfl, rfl, rfl⟩
  refine ⟨?_, hplain.2.1, hplain.2.2, ?_⟩
  · rw [hplain.1, (clampOneof_keeps _ _).2.1, (compile_keeps _ _ _).2]
  · rw [zeroValue_clampOneof]
    show Defaults _ _
    by_cases hown : OwnEntry p field
    · -- a map
      obtain ⟨entry, -, key, value, -, -, -, hline⟩ :=
        renderField_map hvalid hfiles hmessage hfield hown
      rw [show renderField (TypeIndex.build M.files) field = some line from hrender] at hline
      cases hline
      obtain ⟨e, he⟩ := (mapEntry_parts hvalid hfiles hmessage hfield).mpr (.inl hown)
      have hread : "dict" ∈ DefaultExpr.dictFactory.infra := by decide
      have hfactory : factory fr "dict" = .dict := by
        rw [factory, read_factory hvalid hloaded hfile hsound hevent hread]
        rfl
      refine .inr ⟨rfl, _, rfl, ?_⟩
      rw [hfactory]
      refine congrArg Except.ok ?_
      unfold zeroValue FieldDescriptorProto.compile
      rw [he]
    · have hindex := mapEntry_eq_none hvalid hfiles hmessage hfield hown
      have hparts : field.mapEntry p.2.parts.mapEntries p.2.name = none := by
        refine Option.eq_none_iff_forall_ne_some.mpr fun e he => ?_
        exact ((mapEntry_parts hvalid hfiles hmessage hfield).mp ⟨e, he⟩).elim hown hswallowed
      by_cases hrep : field.repeated = true
      · -- a list
        have hline := renderField_list hindex hrep
        rw [show renderField (TypeIndex.build M.files) field = some line from hrender] at hline
        cases hline
        have hread : "list" ∈ DefaultExpr.listFactory.infra := by decide
        have hfactory : factory fr "list" = .list := by
          rw [factory, read_factory hvalid hloaded hfile hsound hevent hread]
          rfl
        refine .inr ⟨rfl, _, rfl, ?_⟩
        rw [hfactory]
        refine congrArg Except.ok ((zeroValue_of_label ?_).1 ?_).symm
        · rw [compile_kind hparts]
          exact field.type.kind_isMap
        · rw [compile_label hparts, if_pos hrep]
      · rw [Bool.not_eq_true] at hrep
        have hline := @renderField_singular field M.index hrep
        rw [hrender] at hline
        cases hline
        exact defaults_singular hvalid hnumbers hloaded hfile hsound hp hfield hrep hnative hparts
          hevent

/-- **The class of a message of a sound module** is a message class as the codec expects it. -/
theorem generatedClass (hp : p ∈ file.allMessages) :
    GeneratedClass (M.linkedWorld py ids) (M.idOf p.1) (M.idOf p.1) := by
  have hfiles := hloaded.files file hfile
  have hmessage := (FileDescriptorProto.mem_messages hp).1
  have hmessageValid := hvalid.message hfiles hmessage
  have hnumber := hnumbers p (List.mem_flatMap.mpr ⟨file, hfiles, hmessage⟩)
  obtain ⟨fr, hevent, hcls⟩ := exists_pyClass hvalid hloaded hfile hp
  -- a field that is read alike by the parser and by the renderer has a line
  have hrender : ∀ f ∈ p.2.field, ∃ line, renderField M.index f = some line := fun f hf =>
    ((agrees_iff hvalid hfiles hmessage hf []).mpr (hsound.alike p hp f hf)).imp fun _ h => h.1
  have hnames : (p.2.field.map (·.name)).Nodup := by
    have hmembers := hmessageValid.members
    unfold DescriptorProto.memberNames at hmembers
    exact (List.nodup_append.mp (List.nodup_append.mp (List.nodup_append.mp hmembers).1).1).1
  obtain ⟨fields, hfields, hentries⟩ :=
    forall₂_dataFields hevent hrender hnames (hsound.names p hp)
  have husable := (SchemaValidator.validate_ok (hloaded.accepted file hfile)).2.2 p hp
  -- the class is what the class statement made, with the descriptor its decorator bound
  have hworld : (M.linkedWorld py ids).cls (M.idOf p.1)
      = { slottedClass fields with fastproto := some (M.idOf p.1) } := by
    show M.pyClass (M.idOf p.1) = _
    rw [hcls, hfields]
  have hdesc : ((M.linkedWorld py ids).descriptor (M.idOf p.1)).inner = p.2.compiled :=
    inner_linked hvalid hnumbers hloaded hfile hsound hp
  exact {
    fastproto := by rw [hworld]
    metaCall := by rw [hworld]; rfl
    concrete := by rw [hworld]; rfl
    dataclass := by
      refine ⟨{ slots := true, fields }, by rw [hworld]; rfl, rfl, ?_⟩
      rw [hdesc, DescriptorProto.compiled, List.forall₂_map_right_iff]
      refine (((List.forall₂_and_left _ _).mpr ⟨fun f hf => hf, hentries⟩).imp ?_).flip
      rintro f entry ⟨hf, fr', line, hline, hevent', rfl⟩
      exact generatedField hvalid hnumbers hloaded hfile hsound hp hf hline hevent'
    parsed := ⟨p.2.bytes, by
      rw [hdesc, p.2.parseMessage_bytes (lt_trans hmessageValid.size (by decide))]⟩
    numbers := by
      rw [hdesc, (compiled_fields p.2).1]
      exact hnumber.1
    valid := by
      intro field hfield
      have hmem : field.number ∈ p.2.compiled.fields.map (·.number) := by
        rw [← hdesc]
        exact List.mem_map_of_mem hfield
      rw [(compiled_fields p.2).1] at hmem
      obtain ⟨f, hf, hfn⟩ := List.mem_map.mp hmem
      rw [← hfn]
      exact hnumber.2 f hf
    names := by
      rw [hdesc, (compiled_fields p.2).2]
      exact hnames
    slot := by
      rw [hdesc, (compiled_fields p.2).2]
      intro hmem
      obtain ⟨f, hf, hname⟩ := List.mem_map.mp hmem
      refine (husable.fields f hf).2 ?_
      rw [hname]
      decide }

end Entries

/-! ## The family -/

section Family

variable (hvalid : ProtocValid M.files) (hnumbers : ValidNumbers M.files) (hloaded : M.Loaded)
  (hsound : ∀ file ∈ M.loaded, M.Sound py file)
include hvalid hnumbers hloaded hsound

/-- **What a field of a loaded class refers to**: the class of a loaded message, or of a loaded enum
with its zero. -/
theorem target_of_field (hfile : file ∈ M.loaded) (hp : p ∈ file.allMessages)
    {compiled : FieldDescriptor} (hcompiled : compiled ∈ p.2.compiled.fields) :
    (compiled.kind.refersToMessage = true → ∃ other ∈ M.loaded, ∃ q ∈ other.allMessages,
      compiled.typeName = some (fullName q.1) ∧
      (M.linkedDescriptors py ids (M.idOf p.1)).ref compiled.number
        = some (buildLinkedRef (M.idOf q.1) (M.pyClass (M.idOf q.1)))) ∧
    (compiled.kind.refersToEnum = true → ∃ full ∈ (enumsOf M.loaded).map Prod.fst,
      0 ∈ M.members full ∧
      (M.linkedDescriptors py ids (M.idOf p.1)).ref compiled.number
        = some (buildLinkedRef (M.idOf full) (M.pyClass (M.idOf full)))) := by
  have hfiles := hloaded.files file hfile
  have hmessage := (FileDescriptorProto.mem_messages hp).1
  have href := fun hneeds name hname => @ref_linked M py ids file p hvalid hnumbers hloaded hfile
    (hsound file hfile) hp compiled hcompiled hneeds name hname
  have hresolvable : ∀ name, compiled.kind.needsRef = true → compiled.typeName = some name →
      M.Resolvable py file name := by
    intro name hneeds hname
    exact (hsound file hfile).resolvable p hp (compiled.number, name)
      (List.mem_filterMap.mpr ⟨compiled, hcompiled, by rw [if_pos hneeds, hname]; rfl⟩)
  obtain ⟨field, hfield, rfl⟩ := List.mem_map.mp hcompiled
  obtain ⟨q, hq, kept, hkept, hplain, htypeName, hkind⟩ :=
    exists_keptType hvalid hfiles hmessage hfield
  rw [← (clampOneof_keeps (p.2.oneofDecl.map (·.name)) _).2.2] at htypeName
  rw [← (clampOneof_shape (p.2.oneofDecl.map (·.name)) _).1] at hkind
  generalize clampOneof (p.2.oneofDecl.map (·.name))
    (field.compile p.2.parts.mapEntries p.2.name) = compiled at *
  -- a map refers to what its value refers to
  have hrefers : compiled.kind.refersToMessage = kept.type.kind.refersToMessage ∧
      compiled.kind.refersToEnum = kept.type.kind.refersToEnum := by
    rcases hkind with hkind | ⟨key, hkind⟩ <;> rw [hkind]
    · exact ⟨rfl, rfl⟩
    · exact kept.type.refersTo_mapValue key
  constructor
  · intro hrefers'
    obtain ⟨typeName, htype, hclass⟩ := ProtoType.message_of_refersTo (hrefers.1 ▸ hrefers')
    obtain ⟨m, hm, rfl⟩ := List.mem_map.mp ((hvalid.messages q hq).messageRefs kept hkept typeName
      (ProtoType.mem_messageName.mpr htype))
    have hmap : m.2.mapEntry = false := Bool.eq_false_iff.mpr fun hmap => hplain m hm hmap htype
    have hneeds := FieldKind.needsRef_of_refers (.inl hrefers')
    have hname := htypeName.trans hclass
    obtain ⟨other, hother, hmem⟩ :=
      loaded_message hvalid hloaded hfile hm hmap (hresolvable _ hneeds hname)
    have hlinked := href hneeds _ hname
    rw [dot_message hm] at hlinked
    exact ⟨other, hother, m, hmem, hname, hlinked⟩
  · intro hrefers'
    obtain ⟨full, htype⟩ := ProtoType.enum_of_refersTo (hrefers.2 ▸ hrefers')
    have hfull := (hvalid.messages q hq).enumRefs kept hkept full (ProtoType.mem_enumName.mpr htype)
    have hneeds := FieldKind.needsRef_of_refers (.inr hrefers')
    have hname : compiled.typeName = some (fullName full) := by
      rw [htypeName, htype]
      rfl
    have hmem := loaded_enum hvalid hloaded hfile hfull (hresolvable _ hneeds hname)
    have hlinked := href hneeds _ hname
    rw [dot_enum hfull] at hlinked
    refine ⟨full, hmem, ?_, hlinked⟩
    obtain ⟨e, he, rfl⟩ := List.mem_map.mp hmem
    obtain ⟨definer, hdefiner, he⟩ := List.mem_flatMap.mp he
    exact (hsound definer hdefiner).zeros e he

/-- **The classes of sound modules are a family** of generated message classes. -/
theorem family_linkedWorld : Family (M.linkedWorld py ids) M.MessageClass where
  generated := by
    rintro cls desc ⟨rfl, file, hfile, p, hp, rfl⟩
    exact generatedClass hvalid hnumbers hloaded hfile (hsound file hfile) hp
  messages := by
    rintro cls desc ⟨rfl, file, hfile, p, hp, rfl⟩ field hfield hrefers
    have hcompiled : field ∈ p.2.compiled.fields := by
      rwa [← inner_linked hvalid hnumbers hloaded hfile (hsound file hfile) hp]
    obtain ⟨other, hother, q, hq, -, href⟩ :=
      (target_of_field hvalid hnumbers hloaded hsound hfile hp hcompiled).1 hrefers
    obtain ⟨fr, -, hcls⟩ := exists_pyClass hvalid hloaded hother hq
    refine ⟨M.idOf q.1, M.idOf q.1, href, ?_, rfl, other, hother, q, hq, rfl⟩
    show (M.pyClass (M.idOf q.1)).fastproto = _
    rw [hcls]
  enums := by
    rintro cls desc ⟨rfl, file, hfile, p, hp, rfl⟩ field hfield hrefers
    have hcompiled : field ∈ p.2.compiled.fields := by
      rwa [← inner_linked hvalid hnumbers hloaded hfile (hsound file hfile) hp]
    obtain ⟨full, hfull, hzero, href⟩ :=
      (target_of_field hvalid hnumbers hloaded hsound hfile hp hcompiled).2 hrefers
    have hcls : (M.linkedWorld py ids).cls (M.idOf full)
        = { enum := some { values := M.members full } } := pyClass_enum hvalid hloaded hfull
    exact ⟨M.idOf full, _, href, by rw [hcls], by rw [hcls], rfl, hzero⟩
  fast := by
    rintro cls desc ⟨rfl, file, hfile, p, hp, rfl⟩ fast hfast
    have hlinked := @linkedDescriptors_eq M py ids file p hvalid hnumbers hloaded hfile
      (hsound file hfile) hp
    have hdesc : (M.linkedWorld py ids).descriptor (M.idOf p.1)
        = M.linkedDescriptors py ids (M.idOf p.1) := rfl
    rw [hdesc, hlinked] at hfast ⊢
    obtain ⟨defaults, hdefaults, rfl⟩ := Option.map_eq_some_iff.mp hfast
    exact hdefaults

/-- **Linking the classes of sound modules** succeeds, and leaves the linked world. -/
theorem linkGraph_program : LinkGraph (M.program py ids) (M.linkedWorld py ids) M.MessageClass where
  family := family_linkedWorld hvalid hnumbers hloaded hsound
  classes := rfl
  own := by
    rintro c c' d ⟨rfl, -⟩ ⟨rfl, -⟩
    rfl
  links := by
    rintro c d ⟨rfl, file, hfile, p, hp, rfl⟩
    obtain ⟨targets, hlink⟩ :=
      @linkOwn_program M py ids file p hvalid hnumbers hloaded hfile (hsound file hfile) hp
    have hdesc : (M.linkedWorld py ids).descriptor (M.idOf p.1)
        = M.linkedDescriptors py ids (M.idOf p.1) := rfl
    rw [hdesc, linkedDescriptors_eq hvalid hnumbers hloaded hfile (hsound file hfile) hp]
    exact ⟨targets, hlink⟩

end Family

end ModuleSet

end FastProto
