import FastProto.ModuleNames

/-! # What generated code reads

The statements of a generated module read names of the runtime, of the standard library and of Python
while names of types and fields are being bound. `infraReads` lists those reads; `read_module` and
`read_body` say which bindings spoil one, at module level and in a class body. -/

namespace FastProto

open Lib

/-! ## Infrastructure names -/

/-- The names of the runtime, the standard library and Python that generated code relies on. -/
def infraNames : List String :=
  ["message", "dataclass", "field", "Message", "Scalar", "IntEnum", "datetime", "timedelta", "bytes",
    "list", "dict"]

/-- What such a name stands for: a builtin, or what the header imports. -/
def infraObj (name : String) : Obj :=
  if name ∈ ["bytes", "list", "dict"] then .builtin name else .runtime name

/-- The infrastructure names in a default. -/
def DefaultExpr.infra : DefaultExpr → List String
  | .pyNone | .literal _ | .enumZero _ => []
  | .listFactory => ["field", "list"]
  | .dictFactory => ["field", "dict"]
  | .enumFactory _ => ["field"]

/-- The infrastructure names in a type expression. -/
def TypeExpr.infra : TypeExpr → List String
  | .scalar _ => ["Scalar"]
  | .native type => [type.name]
  | .named _ _ => []
  | .list element => "list" :: element.infra
  | .dict key value => "dict" :: (key.infra ++ value.infra)
  | .optional type => type.infra

/-- The infrastructure names that a field line reads after it has bound its own name. -/
def FieldLine.annotInfra (line : FieldLine) : List String :=
  if line.quoted then [] else line.annot.infra

/-- The infrastructure names of a single element: `Scalar`, or the name of a native type. -/
def ProtoType.infra : ProtoType → List String
  | .scalar _ => ["Scalar"]
  | .message typeName | .enum typeName => (nativeWkt typeName).toList.map (·.name)

/-- The infrastructure names that the default of a field reads: those of its factory. -/
def FieldDescriptorProto.defaultInfra (index : TypeIndex) (field : FieldDescriptorProto) :
    List String :=
  if (index.mapEntry field).isSome then ["field", "dict"]
  else if field.repeated then ["field", "list"]
  else
    match field.type with
    | .enum typeName =>
        if (nativeWkt typeName).isNone && isNestedPath (index.qualified typeName)
          && !field.hasPresence then ["field"] else []
    | _ => []

/-- The infrastructure names that the annotation of a field reads, none if it is quoted. -/
def FieldDescriptorProto.annotInfra (index : TypeIndex) (field : FieldDescriptorProto) :
    List String :=
  match mapTarget index field with
  | none => []
  | some target =>
      if target.type.isNamed then []
      else if (index.mapEntry field).isSome then "dict" :: "Scalar" :: target.type.infra
      else if field.repeated then "list" :: target.type.infra
      else target.type.infra

/-- **The infrastructure names a statement reads** as it runs, each with the scope it is read in:
the default of a field before its name is bound, an annotation that is not quoted after. -/
def Stmt.infraReads (fr : Lib.Frame Obj) : Stmt → List (Lib.Frame Obj × String)
  | .constant _ _ => [(fr, "bytes")]
  | .enumClass _ _ => [(fr, "IntEnum")]
  | .messageClass _ _ _ _ => [(fr, "message"), (fr, "dataclass"), (fr, "Message")]
  | .field _ line =>
      line.default.infra.map (fun name => (fr, name))
        ++ line.annotInfra.map fun name => (fr.bind (line.name, .value), name)

/-- Infrastructure names do not begin with an underscore. -/
theorem head_of_infra {name : String} (h : name ∈ infraNames) : name.toList.head? ≠ some '_' := by
  revert name
  decide

/-- Nothing that generated code binds is infrastructure. -/
theorem binding_ne_infra (s : Stmt) (name : String) : s.binding.2 ≠ infraObj name := by
  unfold infraObj
  cases s <;> split <;> exact nofun

/-- A rewritten name begins with an underscore, as it did before. -/
theorem head_mangle {cls : Option String} {name : String} (h : mangle cls name ≠ name) :
    (mangle cls name).toList.head? = some '_' ∧ name.toList.head? = some '_' := by
  unfold mangle at h ⊢
  cases cls with
  | none => exact absurd rfl h
  | some cls =>
      dsimp only at h ⊢
      split at h
      · rename_i hprivate
        rw [if_pos hprivate]
        refine ⟨by simp, ?_⟩
        rw [Bool.and_eq_true, isPrivate, Bool.and_eq_true, beginsWith] at hprivate
        obtain ⟨rest, hrest⟩ := List.isPrefixOf_iff_prefix.mp hprivate.1.1
        rw [← hrest]
        rfl
      · exact absurd rfl h

/-- **Only a name itself is rewritten to it**, unless it begins with an underscore. -/
theorem mangle_eq_iff {cls : Option String} {name found : String}
    (h : found.toList.head? ≠ some '_') : mangle cls name = found ↔ name = found := by
  by_cases hname : mangle cls name = name
  · rw [hname]
  · obtain ⟨hhead, hhead'⟩ := head_mangle hname
    refine ⟨fun heq => absurd hhead (heq ▸ h), ?_⟩
    rintro rfl
    exact absurd hhead' h

/-- No other name is rewritten to an infrastructure name, and none of these is rewritten. -/
theorem mangle_eq_infra {cls : Option String} {name infra : String} (h : infra ∈ infraNames) :
    mangle cls name = infra ↔ name = infra := mangle_eq_iff (head_of_infra h)

/-- No constant has an infrastructure name. -/
theorem constName_ne_infra {index : TypeIndex} {full infra : String} (h : infra ∈ infraNames) :
    constName index full ≠ infra := by
  rintro rfl
  refine head_of_infra h ?_
  rw [constName, descriptorConstName, String.toList_append, String.toList_append]
  rfl

/-! ## Imported names -/

/-- A module imports a class under a name. -/
def ImportsName (files : List FileDescriptorProto) (file : FileDescriptorProto) (name : String) :
    Prop :=
  ∃ d, External files file d ∧ d.name = name

section Imports

variable {files : List FileDescriptorProto} {file : FileDescriptorProto}

/-- The enums of a file are indexed without a message. -/
theorem enum_mem_build (hfile : file ∈ files) {e : String × EnumDescriptorProto}
    (he : e ∈ file.enums) : ∃ info, (e.1, info) ∈ TypeIndex.build files ∧ info.message = none := by
  rcases List.mem_append.mp he with h | h
  · obtain ⟨enum, henum, rfl⟩ := List.mem_map.mp h
    exact ⟨_, List.mem_flatMap.mpr ⟨file, hfile, List.mem_append_left _
      (List.mem_map_of_mem henum)⟩, rfl⟩
  · obtain ⟨p, hp, h⟩ := List.mem_flatMap.mp h
    obtain ⟨enum, henum, rfl⟩ := List.mem_map.mp h
    refine ⟨⟨file.name, stripped (file.scope.length + 1) (p.1 ++ "." ++ enum.name), none⟩,
      List.mem_flatMap.mpr ⟨file, hfile, List.mem_append_right _ ?_⟩, rfl⟩
    rw [walkAll_eq]
    exact List.mem_flatMap.mpr ⟨p, hp, List.mem_cons_of_mem _ (List.mem_map_of_mem henum)⟩

/-- No type is both a message and an enum. -/
theorem message_ne_enum (hvalid : ProtocValid files) {p : String × DescriptorProto}
    (hp : p ∈ messagesOf files) {e : String × EnumDescriptorProto} (he : e ∈ enumsOf files) :
    p.1 ≠ e.1 := by
  intro heq
  obtain ⟨other, hother, hp⟩ := List.mem_flatMap.mp hp
  obtain ⟨other', hother', he⟩ := List.mem_flatMap.mp he
  obtain ⟨info, hinfo, hnone⟩ := enum_mem_build hother' he
  have hgetp := TypeIndex.get_of_mem hvalid.typeNames (TypeIndex.message_mem_build hother hp)
  have hgete := TypeIndex.get_of_mem hvalid.typeNames hinfo
  rw [heq, hgete, Option.some.injEq] at hgetp
  rw [hgetp] at hnone
  cases hnone

/-- **A message that a field refers to is no map entry**: a map field refers to the type of its
values. -/
theorem Referenced.userFacing (hvalid : ProtocValid files) (hfile : file ∈ files)
    {q : String × DescriptorProto} (hq : q ∈ messagesOf files) (h : Referenced files file q.1) :
    q.2.mapEntry = false := by
  rw [Bool.eq_false_iff]
  intro hmap
  obtain ⟨-, p, hp, field, hfield, hrefers⟩ := h
  have hpm : p ∈ messagesOf files :=
    List.mem_flatMap.mpr ⟨file, hfile, (FileDescriptorProto.mem_messages hp).1⟩
  -- the name of a message is not that of an enum
  have hmessage : ∀ {r : String × DescriptorProto} {f : FieldDescriptorProto}, r ∈ messagesOf files →
      f ∈ r.2.field → f.type.typeName = some q.1 → f.type = .message q.1 := by
    intro r f hr hf htype
    cases hkind : f.type with
    | scalar s =>
        rw [hkind] at htype
        cases htype
    | message typeName =>
        rw [hkind] at htype
        exact congrArg _ (Option.some.inj htype)
    | enum typeName =>
        rw [hkind] at htype
        obtain ⟨e, he, hname⟩ := List.mem_map.mp ((hvalid.messages r hr).enumRefs f hf typeName
          (ProtoType.mem_enumName.mpr hkind))
        exact absurd (hname.trans (Option.some.inj htype)).symm (message_ne_enum hvalid hq he)
  cases hrefers with
  | direct hplain htype =>
      exact hplain q.2 ⟨hmap, q.1, hmessage hpm hfield htype, hq⟩
  | @mapValue entry value hentry hvalue hnumber htype =>
      obtain ⟨hentryMap, entryName, -, hentry⟩ := hentry
      have hvalueType := hmessage hentry hvalue htype
      -- a field that refers to a map entry is repeated, the value of a map is not
      have hrepeated := ((hvalid.messages _ hentry).entryFields value hvalue q.1
        (ProtoType.mem_messageName.mpr hvalueType)
        (List.mem_map.mpr ⟨q, List.mem_filter.mpr ⟨hq, hmap⟩, rfl⟩)).1
      obtain ⟨kv, hkv, hpair⟩ := (hvalid.messages _ hentry).entry hentryMap
      have hfields := keyValue_of_mem hkv
      dsimp only at hfields hvalue
      rw [hfields, List.mem_cons, List.mem_singleton] at hvalue
      rcases hvalue with rfl | rfl
      · rw [hpair.singular.1] at hrepeated
        cases hrepeated
      · rw [hpair.singular.2] at hrepeated
        cases hrepeated

/-- **The container of a referenced type has a class** at the top level of its module. -/
theorem exists_topClass (hvalid : ProtocValid files) (hfile : file ∈ files)
    {other : FileDescriptorProto} (hother : other ∈ files) {typeName name : String}
    (href : Referenced files file typeName) (hcontains : Contains other name typeName) :
    ∃ obj, (name, obj) ∈ other.topClasses := by
  have hroot : ∀ {msg p}, msg ∈ other.messageType → msg.name = name →
      p ∈ msg.tree (fun _ => true) other.scope → msg.isUserFacing = true →
      ∃ obj, (name, obj) ∈ other.topClasses := by
    intro msg p hmsg hname _ hkeep
    exact ⟨_, mem_classesIn.mpr (.inr ⟨msg, hmsg, hkeep, hname.symm, rfl⟩)⟩
  -- nothing is nested in a map entry
  have hleaf : ∀ {msg}, msg ∈ other.messageType → msg.mapEntry = true →
      msg.nestedType = [] ∧ msg.enumType = [] :=
    fun hmsg hmap => (hvalid.message hother (other.root_mem hmsg)).entryLeaf hmap
  have hself : ∀ {msg p}, msg ∈ other.messageType → msg.mapEntry = true →
      p ∈ msg.tree (fun _ => true) other.scope → p = (other.scope ++ "." ++ msg.name, msg) := by
    intro msg p hmsg hmap hp
    rw [DescriptorProto.tree_eq, if_pos rfl, (hleaf hmsg hmap).1] at hp
    exact List.mem_singleton.mp hp
  cases hcontains with
  | @enum enum henum htop =>
      exact ⟨_, mem_classesIn.mpr (.inl ⟨enum, henum, htop.symm, rfl⟩)⟩
  | @message msg p hmsg htop hp =>
      refine hroot hmsg htop hp ?_
      rw [DescriptorProto.isUserFacing, Bool.not_eq_true', Bool.eq_false_iff]
      intro hmap
      obtain rfl := hself hmsg hmap hp
      have hfalse := href.userFacing hvalid hfile
        (List.mem_flatMap.mpr ⟨other, hother, other.root_mem hmsg⟩)
      rw [hmap] at hfalse
      cases hfalse
  | @nestedEnum msg p enum hmsg htop hp henum =>
      refine hroot hmsg htop hp ?_
      rw [DescriptorProto.isUserFacing, Bool.not_eq_true', Bool.eq_false_iff]
      intro hmap
      obtain rfl := hself hmsg hmap hp
      rw [(hleaf hmsg hmap).2] at henum
      cases henum

end Imports

namespace ModuleSet

variable {M : ModuleSet} {file : FileDescriptorProto} {name : String}

/-! ## Reading infrastructure -/

/-- The header imports classes under exactly the names the module needs. -/
theorem imports_free_iff (hvalid : ProtocValid M.files) (hfile : file ∈ M.files)
    {imported : List (String × String)} (hok : file.externalImports M.index = .ok imported) :
    (∀ b ∈ M.imports file, b.1 ≠ name) ↔ ¬ ImportsName M.files file name := by
  constructor
  · rintro hfree ⟨⟨protoName, name⟩, hneeded, rfl⟩
    obtain ⟨other, hother, rfl, -, typeName, href, hcontains⟩ := id hneeded
    obtain ⟨obj, hobj⟩ := exists_topClass hvalid hfile hother href hcontains
    have hbound : ∃ obj', M.exported other name = some obj' := by
      rw [exported, ← Option.ne_none_iff_exists', Ne, lookup_eq_none_iff_not_mem, not_not, scopeAfter,
        Lib.Frame.locals_bindAll]
      have hmem : (name, obj) ∈ ((other.blocks M.index).map Stmt.binding).filter (·.2.isClass) := by
        rw [classes_of_blocks]
        exact hobj
      simp only [mangle_none, Prod.mk.eta, List.map_id', List.append_nil]
      exact List.mem_map_of_mem (f := Prod.fst) (List.mem_reverse.mpr (List.mem_filter.mp hmem).1)
    obtain ⟨obj', hexported⟩ := hbound
    exact hfree _ (mem_imports hvalid hfile hok hother hneeded hexported) rfl
  · rintro hnone ⟨name', obj⟩ hb rfl
    obtain ⟨other, -, hneeded, -⟩ := exists_of_mem_imports hvalid hfile hb
    exact hnone ⟨_, hneeded, rfl⟩

/-- Whether the header provides a name, or Python does. -/
def Provided (M : ModuleSet) (file : FileDescriptorProto) (name : String) : Prop :=
  name ∈ infraNames ∧ (name ∈ ["bytes", "list", "dict"] ∨ name ∈ file.runtimeNames M.index)

/-- The names of the header are no builtins. -/
theorem runtimeNames_infra (h : name ∈ file.runtimeNames M.index) :
    infraObj name = .runtime name := by
  have hnames : name ∈ ["dataclass", "field", "datetime", "timedelta", "IntEnum", "Message",
      "Scalar", "message"] := by
    simp only [FileDescriptorProto.runtimeNames, List.mem_append, List.mem_ite_nil_right,
      List.mem_singleton] at h
    rcases h with (((((rfl | ⟨-, rfl⟩) | h) | ⟨-, rfl⟩) | rfl) | ⟨-, rfl⟩) | rfl
    case inl.inl.inl.inl.inr =>
      obtain ⟨native, -, rfl⟩ := List.mem_map.mp h
      cases native <;> simp [NativeType.name]
    all_goals simp
  refine if_neg ?_
  clear h
  revert name
  decide

/-- **An infrastructure name is read right at module level** exactly when nothing imported and nothing
bound so far has the name. -/
theorem lookup_infra (hvalid : ProtocValid M.files) (hfile : file ∈ M.files)
    {imported : List (String × String)} (hok : file.externalImports M.index = .ok imported)
    (hprovided : M.Provided file name) (front : List Stmt) :
    ((scopeAfter (M.header file) front).locals.lookup name).or (pythonBuiltins name)
        = some (infraObj name) ↔
      ¬ ImportsName M.files file name ∧ ∀ s ∈ front, s.binding.1 ≠ name := by
  have hlocals : (scopeAfter (M.header file) front).locals
      = (front.map Stmt.binding).reverse ++ ((M.imports file).reverse
        ++ ((file.runtimeNames M.index).map fun n => (n, Obj.runtime n)).reverse) := by
    rw [scopeAfter, Lib.Frame.locals_bindAll, header_cls, header, FileDescriptorProto.headerFrame,
      Lib.Frame.locals_bindAll, List.append_nil]
    simp only [mangle_none, Prod.mk.eta, List.map_id', List.reverse_append]
  have hother : ∀ {obj}, (name, obj) ∈ M.imports file → obj ≠ infraObj name := by
    rintro obj hobj rfl
    obtain ⟨other, -, -, hexported⟩ := exists_of_mem_imports hvalid hfile hobj
    obtain ⟨full, -, hfull⟩ := exported_named hexported
    unfold infraObj at hfull
    split at hfull <;> cases hfull
  -- what the header itself binds, and the builtins
  have hbase : ((((file.runtimeNames M.index).map fun n => (n, Obj.runtime n)).reverse).lookup
      name).or (pythonBuiltins name) = some (infraObj name) := by
    rcases hprovided.2 with hbuiltin | hruntime
    · have hnot : name ∉ file.runtimeNames M.index := by
        intro hruntime
        have hobj := runtimeNames_infra hruntime
        rw [infraObj, if_pos hbuiltin] at hobj
        cases hobj
      rw [lookup_eq_none_iff_not_mem.mpr, Option.none_or, pythonBuiltins, infraObj, if_pos hbuiltin,
        if_pos hbuiltin]
      rw [List.map_reverse, List.mem_reverse, List.map_map]
      exact fun hmem => hnot (by simpa using hmem)
    · cases hlookup : (((file.runtimeNames M.index).map fun n => (n, Obj.runtime n)).reverse).lookup
          name with
      | none =>
          refine absurd ?_ (lookup_eq_none_iff_not_mem.mp hlookup)
          rw [List.map_reverse, List.mem_reverse, List.map_map]
          exact List.mem_map.mpr ⟨name, hruntime, rfl⟩
      | some obj =>
          obtain ⟨n, -, heq⟩ := List.mem_map.mp (List.mem_reverse.mp (mem_of_lookup hlookup))
          cases heq
          rw [Option.some_or, runtimeNames_infra hruntime]
  rw [← imports_free_iff hvalid hfile hok, hlocals, List.lookup_append, List.lookup_append,
    Option.or_assoc, Option.or_assoc]
  cases hfront : ((front.map Stmt.binding).reverse).lookup name with
  | some obj =>
      obtain ⟨s, hs, heq⟩ := List.mem_map.mp (List.mem_reverse.mp (mem_of_lookup hfront))
      refine ⟨fun h => ?_, fun h => absurd (congrArg Prod.fst heq) (h.2 s hs)⟩
      rw [Option.some_or, Option.some.injEq] at h
      exact absurd ((congrArg Prod.snd heq).trans h) (binding_ne_infra s name)
  | none =>
      have hfree : ∀ s ∈ front, s.binding.1 ≠ name := by
        intro s hs heq
        refine lookup_eq_none_iff_not_mem.mp hfront ?_
        rw [List.map_reverse, List.mem_reverse, List.map_map]
        exact List.mem_map.mpr ⟨s, hs, heq⟩
      rw [Option.none_or, and_iff_left hfree]
      cases himport : (M.imports file).reverse.lookup name with
      | some obj =>
          have hmem := List.mem_reverse.mp (mem_of_lookup himport)
          refine ⟨fun h => ?_, fun h => absurd rfl (h _ hmem)⟩
          rw [Option.some_or, Option.some.injEq] at h
          exact absurd h (hother hmem)
      | none =>
          rw [Option.none_or]
          refine ⟨fun _ b hb heq => ?_, fun _ => hbase⟩
          refine lookup_eq_none_iff_not_mem.mp himport ?_
          rw [List.map_reverse, List.mem_reverse]
          exact List.mem_map.mpr ⟨b, hb, heq⟩

/-- The names of the module when the class of a top-level message begins. -/
theorem beforeRoot_moduleScope {earlier : List DescriptorProto} {root : DescriptorProto} :
    (M.beforeRoot file earlier root).moduleScope = (M.beforeRoot file earlier root).locals := by
  rw [Lib.Frame.moduleScope, beforeRoot_cls]

/-- **Reading at module level.** -/
theorem read_module (hvalid : ProtocValid M.files) (hfile : file ∈ M.files)
    {imported : List (String × String)} (hok : file.externalImports M.index = .ok imported)
    (hprovided : M.Provided file name) (front : List Stmt) :
    (scopeAfter (M.header file) front).read pythonBuiltins name = some (infraObj name) ↔
      ¬ ImportsName M.files file name ∧ ∀ s ∈ front, s.binding.1 ≠ name := by
  have hglobals : (scopeAfter (M.header file) front).globals = [] := by
    rw [scopeAfter, Lib.Frame.bindAll_eq, header, FileDescriptorProto.headerFrame,
      Lib.Frame.bindAll_eq]
  have hcls : (scopeAfter (M.header file) front).cls = none := by
    rw [scopeAfter, Lib.Frame.bindAll_cls, header_cls]
  rw [Lib.Frame.read, hcls, hglobals, mangle_none, List.lookup_nil, Option.or_none,
    lookup_infra hvalid hfile hok hprovided]

/-- **Reading in a class body**: nothing of the body either may have the name. -/
theorem read_body (hvalid : ProtocValid M.files) (hfile : file ∈ M.files)
    {imported : List (String × String)} (hok : file.externalImports M.index = .ok imported)
    (hprovided : M.Provided file name) {earlier : List DescriptorProto} {root : DescriptorProto}
    {outer : String × DescriptorProto} (before : List Stmt) :
    (scopeAfter (bodyStart (M.beforeRoot file earlier root).moduleScope outer) before).read
        pythonBuiltins name = some (infraObj name) ↔
      (∀ s ∈ before, s.binding.1 ≠ name) ∧ ¬ ImportsName M.files file name ∧
        ∀ s ∈ file.beforeClass M.index earlier root, s.binding.1 ≠ name := by
  have hmangle : mangle (some outer.2.name) name = name :=
    (mangle_eq_infra hprovided.1).mpr rfl
  have hvalues : ∀ b ∈ before.map Stmt.binding, b.2 ≠ infraObj name := by
    intro b hb
    obtain ⟨s, -, rfl⟩ := List.mem_map.mp hb
    exact binding_ne_infra s name
  rw [scopeAfter, Lib.Frame.read_bindAll_iff rfl hvalues, ← lookup_infra hvalid hfile hok hprovided,
    List.forall_mem_map]
  refine and_congr (forall₂_congr fun s _ => ?_) ?_
  · rw [show (bodyStart (M.beforeRoot file earlier root).moduleScope outer).cls
      = some outer.2.name from rfl, hmangle, Ne, mangle_eq_infra hprovided.1]
  · rw [show (bodyStart (M.beforeRoot file earlier root).moduleScope outer).cls
      = some outer.2.name from rfl, hmangle]
    rw [show (bodyStart (M.beforeRoot file earlier root).moduleScope outer).globals
      = (M.beforeRoot file earlier root).moduleScope from rfl, beforeRoot_moduleScope]
    rfl

/-! ## What the header provides -/

/-- A name of the header is provided. -/
theorem provided_of_runtime (h : name ∈ file.runtimeNames M.index) (hinfra : name ∈ infraNames) :
    M.Provided file name := ⟨hinfra, .inr h⟩

/-- The names of the builtins are provided. -/
theorem provided_builtin (h : name ∈ ["bytes", "list", "dict"]) : M.Provided file name := by
  refine ⟨?_, .inl h⟩
  revert name
  decide

/-- The names that every header imports are provided. -/
theorem provided_class (h : name ∈ ["message", "dataclass", "Message"]) : M.Provided file name := by
  refine provided_of_runtime ?_ ?_
  · simp only [List.mem_cons, List.not_mem_nil, or_false] at h
    rcases h with rfl | rfl | rfl <;> simp [FileDescriptorProto.runtimeNames]
  · revert name
    decide

/-- The base of enum classes is provided where there are enums. -/
theorem provided_intEnum (h : file.hasEnum = true) : M.Provided file "IntEnum" := by
  refine provided_of_runtime ?_ (by decide)
  rw [FileDescriptorProto.runtimeNames, h]
  simp

/-- The infrastructure names of a single element are those of its type. -/
theorem infra_elementAnnot {index : TypeIndex} {type : ProtoType} :
    (elementAnnot index type).infra = type.infra := by
  unfold elementAnnot
  cases type with
  | scalar s => rfl
  | message typeName | enum typeName =>
      dsimp only [ProtoType.infra]
      cases nativeWkt typeName <;> rfl

/-- The key of a map is a scalar. -/
theorem key_scalar (hvalid : ProtocValid M.files) (hfile : file ∈ M.files)
    {p : String × DescriptorProto} (hp : p ∈ file.messages) {field key : FieldDescriptorProto}
    (hfield : field ∈ p.2.field) {entry : DescriptorProto}
    (hentry : M.index.mapEntry field = some entry)
    (hkey : entry.field.find? (fun f => f.number == 1) = some key) :
    ∃ s, key.type = .scalar s := by
  obtain ⟨hmap, typeName, -, hmsg⟩ := (mapEntry_eq_some hvalid.wellNamed
    (List.mem_flatMap.mpr ⟨file, hfile, hp⟩) hfield).mp hentry
  obtain ⟨kv, hkv, hpair⟩ := (hvalid.messages _ hmsg).entry hmap
  have hfields := keyValue_of_mem hkv
  dsimp only at hfields
  rw [hfields, List.find?_cons_of_pos (by simp [hpair.keyNumber]), Option.some.injEq] at hkey
  subst hkey
  have hscalar := hpair.keyScalar
  cases htype : kv.1.type with
  | scalar s => exact ⟨s, rfl⟩
  | message _ | enum _ =>
      rw [htype] at hscalar
      cases hscalar

/-- The infrastructure names of a singular field. -/
theorem infra_singular {index : TypeIndex} {field : FieldDescriptorProto}
    (hentry : index.mapEntry field = none) (hrep : field.repeated = false) :
    (renderSingularField index field).default.infra = field.defaultInfra index ∧
      (renderSingularField index field).annotInfra = field.annotInfra index := by
  unfold renderSingularField renderEnumField FieldDescriptorProto.defaultInfra
    FieldDescriptorProto.annotInfra mapTarget FieldLine.annotInfra ProtoType.isNamed
  rw [hentry, hrep]
  cases htype : field.type with
  | scalar s => cases hpresence : field.hasPresence <;> simp [ProtoType.typeName, DefaultExpr.infra,
      TypeExpr.infra, ProtoType.infra, htype]
  | message typeName =>
      cases hnative : nativeWkt typeName <;> simp [ProtoType.typeName, DefaultExpr.infra,
        TypeExpr.infra, ProtoType.infra, hnative, htype]
  | enum typeName =>
      cases hnative : nativeWkt typeName with
      | some native => simp [ProtoType.typeName, DefaultExpr.infra, TypeExpr.infra, ProtoType.infra,
          hnative, htype]
      | none =>
          cases hpresence : field.hasPresence <;>
            cases hnested : isNestedPath (index.qualified typeName) <;>
              simp [ProtoType.typeName, DefaultExpr.infra, TypeExpr.infra, hnative, hnested, htype]

/-- **The infrastructure names of a field line** are those of its field. -/
theorem infra_of_line (hvalid : ProtocValid M.files) (hfile : file ∈ M.files)
    {p : String × DescriptorProto} (hp : p ∈ file.messages) {field : FieldDescriptorProto}
    (hfield : field ∈ p.2.field) {line : FieldLine}
    (hline : renderField M.index field = some line) :
    line.default.infra = field.defaultInfra M.index ∧
      line.annotInfra = field.annotInfra M.index := by
  cases hentry : M.index.mapEntry field with
  | some entry =>
      unfold renderField at hline
      rw [hentry] at hline
      obtain ⟨key, hkey, hline⟩ := Option.bind_eq_some_iff.mp hline
      obtain ⟨value, hvalue, hline⟩ := Option.bind_eq_some_iff.mp hline
      cases hline
      obtain ⟨s, hs⟩ := key_scalar hvalid hfile hp hfield hentry hkey
      rw [FieldDescriptorProto.defaultInfra, FieldDescriptorProto.annotInfra, mapTarget, hentry]
      dsimp only
      rw [hvalue, FieldLine.annotInfra, TypeExpr.infra, infra_elementAnnot, infra_elementAnnot, hs]
      exact ⟨rfl, rfl⟩
  | none =>
      cases hrep : field.repeated with
      | true =>
          rw [renderField_list hentry hrep] at hline
          cases hline
          rw [FieldDescriptorProto.defaultInfra, FieldDescriptorProto.annotInfra, mapTarget, hentry,
            hrep, FieldLine.annotInfra, TypeExpr.infra, infra_elementAnnot]
          exact ⟨rfl, rfl⟩
      | false =>
          rw [renderField_singular hrep] at hline
          cases hline
          exact infra_singular hentry hrep

section Fields

variable {field : FieldDescriptorProto} (huser : field ∈ file.userFields)

include huser

/-- `Scalar` is provided where a field has a scalar type, or a map key. -/
theorem provided_scalar
    (h : (M.index.mapEntry field).isSome = true ∨ field.type.scalar?.isSome = true) :
    M.Provided file "Scalar" := by
  have huses : file.usesScalar M.index = true :=
    List.any_eq_true.mpr ⟨field, huser, by simpa using h⟩
  refine provided_of_runtime ?_ (by decide)
  rw [FileDescriptorProto.runtimeNames, huses]
  simp

/-- A native type is provided where a field refers to it. -/
theorem provided_native {target : FieldDescriptorProto} {native : NativeType}
    (htarget : mapTarget M.index field = some target)
    (h : target.type.typeName.bind nativeWkt = some native) : M.Provided file native.name := by
  have hnatives : native.name ∈ file.nativeNames M.index := by
    refine List.mem_map.mpr ⟨native, List.mem_filter.mpr ⟨by cases native <;> simp, ?_⟩, rfl⟩
    rw [List.contains_iff_mem]
    exact List.mem_filterMap.mpr ⟨field, huser, by rw [htarget, Option.bind_some, h]⟩
  refine provided_of_runtime ?_ (by cases native <;> decide)
  simp only [FileDescriptorProto.runtimeNames, List.mem_append]
  exact .inl (.inl (.inl (.inl (.inr hnatives))))

/-- `field` is provided where a field has a factory. -/
theorem provided_fieldFactory (h : field.repeated = true ∨ ∃ typeName, field.type = .enum typeName ∧
    isNestedPath (M.index.qualified typeName) = true) : M.Provided file "field" := by
  have hneeded : file.needsField M.index = true := by
    refine List.any_eq_true.mpr ⟨field, huser, ?_⟩
    rcases h with hrep | ⟨typeName, htype, hnested⟩
    · rw [hrep, Bool.true_or]
    · rw [htype, Bool.or_eq_true]
      exact .inr hnested
  refine provided_of_runtime ?_ (by decide)
  rw [FileDescriptorProto.runtimeNames, hneeded]
  simp

/-- The header provides what the element type of a field reads. -/
theorem provided_element {target : FieldDescriptorProto}
    (htarget : mapTarget M.index field = some target)
    (hscalar : (M.index.mapEntry field).isSome = true ∨ target = field)
    (hname : name ∈ target.type.infra) : M.Provided file name := by
  cases htype : target.type with
  | scalar s =>
      rw [htype] at hname
      cases List.mem_singleton.mp hname
      refine provided_scalar huser (hscalar.imp_right ?_)
      rintro rfl
      rw [htype]
      rfl
  | message typeName | enum typeName =>
      rw [htype] at hname
      obtain ⟨native, hnative, rfl⟩ := List.mem_map.mp hname
      exact provided_native huser htarget
        (by rw [htype]; exact Option.mem_toList.mp hnative)

/-- **The header provides what the default of a field reads.** -/
theorem provided_default (hname : name ∈ field.defaultInfra M.index) : M.Provided file name := by
  unfold FieldDescriptorProto.defaultInfra at hname
  split at hname
  · rename_i hsome
    obtain ⟨entry, hentry⟩ := Option.isSome_iff_exists.mp hsome
    rcases List.mem_pair.mp hname with rfl | rfl
    · exact provided_fieldFactory huser (.inl (TypeIndex.mapEntry_eq_some_iff.mp hentry).1)
    · exact provided_builtin (by decide)
  · split at hname
    · rename_i hrep
      rcases List.mem_pair.mp hname with rfl | rfl
      · exact provided_fieldFactory huser (.inl hrep)
      · exact provided_builtin (by decide)
    · split at hname
      · rename_i typeName htype
        split at hname
        · rename_i hnested
          simp only [Bool.and_eq_true] at hnested
          cases List.mem_singleton.mp hname
          exact provided_fieldFactory huser (.inr ⟨typeName, htype, hnested.1.2⟩)
        · cases hname
      · cases hname

/-- **The header provides what the annotation of a field reads.** -/
theorem provided_annot (hname : name ∈ field.annotInfra M.index) : M.Provided file name := by
  unfold FieldDescriptorProto.annotInfra at hname
  split at hname
  · cases hname
  · rename_i target htarget
    split at hname
    · cases hname
    · split at hname
      · rename_i hsome
        rcases List.mem_cons.mp hname with rfl | hname
        · exact provided_builtin (by decide)
        · rcases List.mem_cons.mp hname with rfl | hname
          · exact provided_scalar huser (.inl hsome)
          · exact provided_element huser htarget (.inl hsome) hname
      · rename_i hnone
        have hself : target = field := by
          rw [mapTarget, Option.not_isSome_iff_eq_none.mp hnone] at htarget
          exact (Option.some.inj htarget).symm
        split at hname
        · rcases List.mem_cons.mp hname with rfl | hname
          · exact provided_builtin (by decide)
          · exact provided_element huser htarget (.inr hself) hname
        · exact provided_element huser htarget (.inr hself) hname

end Fields

end ModuleSet

end FastProto
