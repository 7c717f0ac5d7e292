import FastProto.Denotes
import FastProto.ExternalImports
import FastProto.ModuleSet

/-! # The classes of loaded modules

What the loaded modules of a `ModuleSet` make of their files: `world_cls` says that the classes are
those of the user-facing messages, each under its own identity, and `regular_world` that they are as
dict conversion expects of generated classes. A field refers to a message whose module is loaded,
since the header imports it. -/

namespace FastProto

open Lib

/-! ## Lines of a class body -/

/-- The lines of a body are those of its field statements. -/
theorem exists_of_mem_linesOf {fr fr' : Lib.Frame Obj} {stmts : List Stmt} {line : FieldLine}
    (h : (fr', line) ∈ linesOf fr stmts) : ∃ field, .field field line ∈ stmts := by
  induction stmts generalizing fr with
  | nil => cases h
  | cons s rest ih =>
      unfold linesOf at h
      rcases List.mem_append.mp h with h | h
      · cases s with
        | field field line' =>
            cases List.mem_singleton.mp h
            exact ⟨field, List.mem_cons_self⟩
        | constant | enumClass | messageClass => cases h
      · obtain ⟨field, hfield⟩ := ih h
        exact ⟨field, List.mem_cons_of_mem _ hfield⟩

/-- **The lines of the class of a message** are its rendered fields. -/
theorem exists_of_mem_lines {index : TypeIndex} {p : String × DescriptorProto}
    {fr fr' : Lib.Frame Obj} {line : FieldLine} (h : (fr', line) ∈ linesOf fr (classBody index p)) :
    ∃ field ∈ p.2.field, renderField index field = some line := by
  obtain ⟨field, hfield⟩ := exists_of_mem_linesOf h
  rw [classBody, List.mem_append, List.mem_append, renderClasses_eq] at hfield
  rcases hfield with (hmem | hmem) | hmem
  · obtain ⟨enum, -, heq⟩ := List.mem_map.mp hmem
    cases heq
  · obtain ⟨child, -, heq⟩ := List.mem_map.mp hmem
    rw [DescriptorProto.renderClass_eq] at heq
    cases heq
  · obtain ⟨field', hfield', hline⟩ := List.mem_filterMap.mp hmem
    obtain ⟨line', hline, heq⟩ := Option.map_eq_some_iff.mp hline
    cases heq
    exact ⟨field, hfield', hline⟩

/-- A rendered line has the name of its field. -/
theorem renderField_name {index : TypeIndex} {field : FieldDescriptorProto} {line : FieldLine}
    (h : renderField index field = some line) : line.name = field.name := by
  have hsingular : (renderSingularField index field).name = field.name := by
    unfold renderSingularField renderEnumField
    split
    · rfl
    · split
      · rfl
      · dsimp only
        split <;> [rfl; split <;> rfl]
      · split <;> rfl
  unfold renderField at h
  split at h
  · obtain ⟨key, -, h⟩ := Option.bind_eq_some_iff.mp h
    obtain ⟨value, -, h⟩ := Option.bind_eq_some_iff.mp h
    cases h
    rfl
  · split at h
    · cases h
      rfl
    · cases h
      exact hsingular

/-! ## Annotations of a class -/

namespace ModuleSet

section Annotations

variable {cls : String} {lines : List (Lib.Frame Obj × FieldLine)}

/-- Every annotation is one of the lines, under the name it binds. -/
theorem mem_annotations {a : String × Lib.Frame Obj × FieldLine} (h : a ∈ annotations cls lines) :
    a.2 ∈ lines ∧ a.1 = mangle (some cls) a.2.2.name := by
  have hfold : ∀ (rest : List (Lib.Frame Obj × FieldLine)) acc,
      (∀ a ∈ acc, a.2 ∈ lines ∧ a.1 = mangle (some cls) a.2.2.name) → (∀ l ∈ rest, l ∈ lines) →
      ∀ a ∈ rest.foldl (fun acc l => upsertBy (· == ·) acc (mangle (some cls) l.2.name) l) acc,
        a.2 ∈ lines ∧ a.1 = mangle (some cls) a.2.2.name := by
    intro rest
    induction rest with
    | nil => exact fun acc hacc _ => hacc
    | cons l rest ih =>
        intro acc hacc hrest
        refine ih _ (fun a ha => ?_) fun l hl => hrest l (List.mem_cons_of_mem _ hl)
        rcases eq_or_mem_of_mem_upsertBy ha with ha | rfl
        · exact hacc a ha
        · exact ⟨hrest l List.mem_cons_self, rfl⟩
  exact hfold lines [] (by simp) (fun _ h => h) a h

/-- The annotations of a class have distinct names. -/
theorem nodup_annotations : ((annotations cls lines).map Prod.fst).Nodup := by
  have hfold : ∀ (rest : List (Lib.Frame Obj × FieldLine))
      (acc : List (String × Lib.Frame Obj × FieldLine)),
      acc.Pairwise (fun p q => (p.1 == q.1) = false) →
      (rest.foldl (fun acc l => upsertBy (· == ·) acc (mangle (some cls) l.2.name) l) acc).Pairwise
        fun p q => (p.1 == q.1) = false := by
    intro rest
    induction rest with
    | nil => exact fun acc hacc => hacc
    | cons l rest ih => exact fun acc hacc => ih _ (pairwise_upsertBy hacc)
  rw [List.Nodup, List.pairwise_map]
  exact (hfold lines [] List.Pairwise.nil).imp fun h => by simpa using h

end Annotations

/-! ## Classes -/

variable {M : ModuleSet} {file : FileDescriptorProto} {repr : PyVal → String}

/-- The class of a message whose class statement starts in the given scope. -/
def classOf (M : ModuleSet) (file : FileDescriptorProto) (fr : Lib.Frame Obj)
    (p : String × DescriptorProto) : DictClass :=
  M.dictClass file fr (descriptorConstName (M.index.qualified p.1)) p.2 (classBody M.index p)

/-- The class statements of a module are those of the user-facing messages of its file. -/
theorem stmt_of_class_event {fr fr' : Lib.Frame Obj} {full const : String} {msg : DescriptorProto}
    {body : List Stmt}
    (h : (fr', .messageClass full const msg body) ∈ eventsOf fr (file.blocks M.index)) :
    ∃ p ∈ file.allMessages, .messageClass full const msg body = classStmt M.index p := by
  rcases FileDescriptorProto.event_of_blocks h with ⟨hsimple, -⟩ |
    ⟨earlier, root, later, hsplit, hclass⟩
  · cases hsimple
  · have hroot : root ∈ file.messageType.filter (·.isUserFacing) := by rw [hsplit]; simp
    obtain ⟨hroot, hkeep⟩ := List.mem_filter.mp hroot
    rcases hclass with heq | ⟨outer, houter, before, after, hbody, -⟩
    · exact ⟨_, mem_forest.mpr ⟨root, hroot, hkeep, .inl rfl⟩, congrArg Prod.snd heq⟩
    · have hmem : outer ∈ file.allMessages := by
        rw [FileDescriptorProto.allMessages, forest_eq]
        exact List.mem_flatMap.mpr ⟨root, hroot, houter⟩
      have hstmt : .messageClass full const msg body ∈ classBody M.index outer := by
        rw [hbody]
        simp
      obtain ⟨child, hchild, hkeep', hstmt⟩ := exists_child_of_mem hstmt
      exact ⟨_, nested_mem_forest hmem hchild hkeep', hstmt⟩

/-- A class of a module is that of a user-facing message. -/
theorem exists_of_mem_moduleClasses {id : ClassId} {cls : DictClass}
    (h : (id, cls) ∈ M.moduleClasses file) :
    ∃ p ∈ file.allMessages, ∃ fr, id = M.idOf p.1 ∧ cls = M.classOf file fr p := by
  obtain ⟨⟨fr, s⟩, he, hsome⟩ := List.mem_filterMap.mp h
  cases s with
  | messageClass full const msg body =>
      cases hsome
      obtain ⟨p, hp, hstmt⟩ := stmt_of_class_event he
      cases hstmt
      exact ⟨p, hp, fr, rfl, rfl⟩
  | constant | enumClass | field => cases hsome

/-- **The classes of the loaded modules** are those of the user-facing messages of their files. -/
theorem exists_of_world_cls {id : ClassId} {cls : DictClass}
    (h : (M.world repr).cls id = some cls) :
    ∃ file ∈ M.loaded, ∃ p ∈ file.allMessages, ∃ fr, id = M.idOf p.1 ∧ cls = M.classOf file fr p := by
  obtain ⟨file, hfile, hmem⟩ := List.mem_flatMap.mp (mem_of_lookup h)
  obtain ⟨p, hp, fr, hid, hcls⟩ := exists_of_mem_moduleClasses hmem
  exact ⟨file, hfile, p, hp, fr, hid, hcls⟩

/-- Every user-facing message of a loaded file has a class. -/
theorem exists_world_cls (hfile : file ∈ M.loaded) {p : String × DescriptorProto}
    (hp : p ∈ file.allMessages) : ∃ cls, (M.world repr).cls (M.idOf p.1) = some cls := by
  obtain ⟨fr, hevent⟩ := FileDescriptorProto.class_event_of_mem hp (M.header file)
  have hmem : (M.idOf p.1, M.classOf file fr p) ∈ M.loaded.flatMap M.moduleClasses :=
    List.mem_flatMap.mpr ⟨file, hfile, List.mem_filterMap.mpr ⟨_, hevent, rfl⟩⟩
  refine Option.ne_none_iff_exists'.mp fun hnone => ?_
  have hfree := List.lookup_eq_none_iff.mp hnone _ hmem
  simp at hfree

/-- The name a line has in a class body is no reserved one. -/
theorem mangle_ne_unknownSlot {cls name : String} (h : name ≠ unknownSlot) :
    mangle (some cls) name ≠ unknownSlot := by
  unfold mangle
  dsimp only
  split
  · rename_i hprivate
    simp only [isPrivate, beginsWith, Bool.and_eq_true, List.isPrefixOf_iff_prefix] at hprivate
    obtain ⟨rest, hrest⟩ := hprivate.1.1
    intro heq
    -- a mangled name has two underscores in a row, the slot has not
    have hinfix : "__".toList <:+: unknownSlot.toList := by
      have hlist := congrArg String.toList heq
      rw [String.toList_ofList, ← hrest, ← List.append_assoc] at hlist
      exact ⟨'_' :: privateOwner cls, rest, hlist⟩
    exact absurd hinfix (by decide)
  · exact h

/-- **A class of a loaded module is a plain dataclass.** -/
theorem plain_classOf {p : String × DescriptorProto}
    (hslot : ∀ field ∈ p.2.field, field.name ≠ unknownSlot) (fr : Lib.Frame Obj) :
    (M.classOf file fr p).Plain where
  dataclass := by
    refine ⟨_, rfl, ?_, ?_⟩
    · simp only [classOf, dictClass, List.map_map]
      refine List.map_congr_left fun a _ => ?_
      dsimp only [Function.comp]
      unfold dataField
      split <;> rfl
    · intro f hf
      obtain ⟨a, -, rfl⟩ := List.mem_map.mp hf
      unfold dataField
      split <;> exact ⟨rfl, rfl⟩
  names := by
    simp only [classOf, dictClass, List.map_map]
    exact nodup_annotations
  slot := by
    intro hmem
    simp only [classOf, dictClass, List.map_map] at hmem
    obtain ⟨a, ha, hname⟩ := List.mem_map.mp hmem
    obtain ⟨hline, hmangle⟩ := mem_annotations ha
    obtain ⟨field, hfield, hrender⟩ := exists_of_mem_lines hline
    refine mangle_ne_unknownSlot ?_ (hmangle.symm.trans hname)
    rw [renderField_name hrender]
    exact hslot field hfield

/-- Classes of different types have different identities. -/
theorem idOf_inj {full full' : String} (hfull : full ∈ M.index.map Prod.fst) :
    M.idOf full = M.idOf full' ↔ full = full' := List.idxOf_inj hfull

/-- The user-facing messages of loaded files are indexed. -/
theorem mem_index_of_loaded (hloaded : M.Loaded) (hfile : file ∈ M.loaded)
    {p : String × DescriptorProto} (hp : p ∈ file.allMessages) : p.1 ∈ M.index.map Prod.fst :=
  List.mem_map_of_mem (f := Prod.fst) (TypeIndex.message_mem_build (hloaded.files file hfile)
    (FileDescriptorProto.mem_messages hp).1)

/-! ## References -/

end ModuleSet

/-- Every message that is no map entry is user-facing: nothing is nested in a map entry. -/
theorem ProtocValid.mem_allMessages {files : List FileDescriptorProto}
    (hvalid : ProtocValid files) {file : FileDescriptorProto} (hfile : file ∈ files)
    {p : String × DescriptorProto} (hp : p ∈ file.messages) (hmap : p.2.mapEntry = false) :
    p ∈ file.allMessages := by
  have hleaf : ∀ q ∈ file.messages, q.2.mapEntry = true → q.2.nestedType = [] :=
    fun q hq hentry => ((hvalid.message hfile hq).entryLeaf hentry).1
  refine forest_induction (motive := fun scope msgs p =>
    (∀ q ∈ forest (fun _ => true) scope msgs, q.2.mapEntry = true → q.2.nestedType = []) →
      p.2.mapEntry = false → p ∈ forest DescriptorProto.isUserFacing scope msgs)
    ?_ ?_ _ _ p hp hleaf hmap
  · intro scope msgs root hroot _ _ hmap
    exact mem_forest.mpr ⟨root, hroot, by rw [DescriptorProto.isUserFacing, hmap]; rfl, .inl rfl⟩
  · intro scope msgs root p hroot _ hp ih hleaf hmap
    have hkeep : root.isUserFacing = true := by
      rw [DescriptorProto.isUserFacing, Bool.not_eq_true', Bool.eq_false_iff]
      intro hentry
      have hnil := hleaf _ (mem_forest.mpr ⟨root, hroot, rfl, .inl rfl⟩) hentry
      dsimp only at hnil
      rw [hnil] at hp
      cases hp
    exact mem_forest.mpr ⟨root, hroot, hkeep, .inr (ih (fun q hq =>
      hleaf q (mem_forest.mpr ⟨root, hroot, rfl, .inr hq⟩)) hmap)⟩

namespace ModuleSet

variable {M : ModuleSet} {file : FileDescriptorProto} {repr : PyVal → String}

/-- **The messages a loaded file refers to are loaded**: their module is the file's own, or
imported. -/
theorem loaded_of_referenced (hvalid : ProtocValid M.files) (hloaded : M.Loaded)
    (hfile : file ∈ M.loaded) {q : String × DescriptorProto}
    (href : Referenced M.files file q.1) (hq : q ∈ messagesOf M.files)
    (hmap : q.2.mapEntry = false) : ∃ other ∈ M.loaded, q ∈ other.allMessages := by
  obtain ⟨other, hother, hq⟩ := List.mem_flatMap.mp hq
  have huser := hvalid.mem_allMessages hother hq hmap
  have hindexed := TypeIndex.message_mem_build hother hq
  obtain ⟨definer, hdefiner, hname, top, hcontains⟩ := contains_of_indexed hindexed
  have hunique : ∀ {f g : FileDescriptorProto}, f ∈ M.files → g ∈ M.files → f.name = g.name →
      f = g := fun hf hg h => List.inj_on_of_nodup_map hvalid.fileNames hf hg h
  obtain rfl := hunique hdefiner hother hname
  by_cases hown : definer.name = file.name
  · obtain rfl := hunique hother (hloaded.files file hfile) hown
    exact ⟨definer, hfile, huser⟩
  · obtain ⟨imported, himported, hall⟩ := hloaded.imports file hfile
    have hexternal : External M.files file ⟨definer.name, top⟩ :=
      ⟨definer, hother, rfl, hown, q.1, href, hcontains⟩
    have hmem := (mem_externalImports hvalid.wellNamed (hloaded.files file hfile) himported).mpr
      hexternal
    obtain ⟨owner, howner, hownerName⟩ := hall _ hmem
    obtain rfl := hunique (hloaded.files owner howner) hother hownerName
    exact ⟨owner, howner, huser⟩

/-- **The message a field of a loaded file holds is loaded**, itself or as the value of a map. -/
theorem loaded_of_refers (hvalid : ProtocValid M.files) (hloaded : M.Loaded)
    (hfile : file ∈ M.loaded) {p : String × DescriptorProto} (hp : p ∈ file.allMessages)
    {field target : FieldDescriptorProto} (hfield : field ∈ p.2.field)
    (htarget : mapTarget M.index field = some target) {typeName : String}
    (htype : target.type = .message typeName) (hnative : nativeWkt typeName = none) :
    ∃ other ∈ M.loaded, ∃ msg, (typeName, msg) ∈ other.allMessages := by
  have hpm : p ∈ messagesOf M.files := List.mem_flatMap.mpr
    ⟨file, hloaded.files file hfile, (FileDescriptorProto.mem_messages hp).1⟩
  have hreferenced : Referenced M.files file typeName := by
    refine ⟨hnative, p, hp, field, hfield, ((reference_iff hvalid.wellNamed hpm hfield).mp ?_).2⟩
    rw [show mapTarget (TypeIndex.build M.files) field = some target from htarget,
      Option.bind_some]
    exact ProtoType.named_iff.mpr ⟨hnative, by rw [htype]; rfl⟩
  have hfound : ∀ {q : String × DescriptorProto} {f : FieldDescriptorProto},
      q ∈ messagesOf M.files → f ∈ q.2.field → f.type = .message typeName →
      ∃ msg, (typeName, msg) ∈ messagesOf M.files := by
    intro q f hq hf hf'
    obtain ⟨r, hr, hname⟩ := List.mem_map.mp ((hvalid.messages q hq).messageRefs f hf typeName
      (ProtoType.mem_messageName.mpr hf'))
    exact ⟨r.2, hname ▸ hr⟩
  have hmessage : ∃ msg, (typeName, msg) ∈ messagesOf M.files ∧ msg.mapEntry = false := by
    unfold mapTarget at htarget
    cases hentry : M.index.mapEntry field with
    | none =>
        rw [hentry] at htarget
        cases htarget
        obtain ⟨msg, hmsg⟩ := hfound hpm hfield htype
        refine ⟨msg, hmsg, Bool.eq_false_iff.mpr fun hmap => ?_⟩
        have hsome := (mapEntry_eq_some hvalid.wellNamed hpm hfield).mpr
          ⟨hmap, typeName, htype, hmsg⟩
        rw [show (TypeIndex.build M.files).mapEntry field = none from hentry] at hsome
        cases hsome
    | some entry =>
        rw [hentry] at htarget
        obtain ⟨hmap, name, -, hmem⟩ := (mapEntry_eq_some hvalid.wellNamed hpm hfield).mp hentry
        obtain ⟨kv, hkv, hpair⟩ := (hvalid.messages _ hmem).entry hmap
        obtain ⟨hvalue, hnumber⟩ := (find?_value hkv hpair).mp htarget
        obtain ⟨msg, hmsg⟩ := hfound hmem hvalue htype
        refine ⟨msg, hmsg, Bool.eq_false_iff.mpr fun hinner => ?_⟩
        -- a field that refers to a map entry is repeated, the value of a map is not
        have hrepeated := ((hvalid.messages _ hmem).entryFields target hvalue typeName
          (ProtoType.mem_messageName.mpr htype)
          (List.mem_map.mpr ⟨_, List.mem_filter.mpr ⟨hmsg, hinner⟩, rfl⟩)).1
        have hsingle : target.repeated = false := by
          have hfields := keyValue_of_mem hkv
          rw [hfields, List.mem_cons, List.mem_singleton] at hvalue
          rcases hvalue with rfl | rfl
          · exact hpair.singular.1
          · exact hpair.singular.2
        rw [hsingle] at hrepeated
        cases hrepeated
  obtain ⟨msg, hmsg, hmap⟩ := hmessage
  obtain ⟨other, hother, hq⟩ := loaded_of_referenced hvalid hloaded hfile hreferenced hmsg hmap
  exact ⟨other, hother, msg, hq⟩

end ModuleSet

/-! ## Values of annotations -/

section Values

variable {w : DictWorld} {index : TypeIndex} {field : FieldDescriptorProto}

/-- The default of a scalar is one of its values. -/
theorem ScalarType.holds_scalarDefault (s : ScalarType) : s.holds (scalarDefault s) = true := by
  cases s <;> rfl

/-- Every native type has a value. -/
theorem exists_holds_native (type : NativeType) : ∃ value, Holds w (.native type) value := by
  cases type with
  | datetime =>
      exact ⟨_, .datetime ⟨0, none, by decide, by decide, fun _ h => nomatch h⟩⟩
  | timedelta => exact ⟨_, .timedelta ⟨0, by decide, by decide⟩⟩

/-- An element has a value when the message it names has an instance. -/
theorem filled_elementAnnot {type : ProtoType}
    (h : ∀ typeName, type = .message typeName → nativeWkt typeName = none →
      ∃ value, Holds w (.named type (index.qualified typeName)) value) :
    w.Filled (elementAnnot index type) := by
  cases type with
  | scalar s => exact ⟨_, .scalar s.holds_scalarDefault⟩
  | message typeName =>
      unfold elementAnnot
      dsimp only
      split
      · exact exists_holds_native _
      · rename_i hnative
        exact h typeName rfl hnative
  | enum typeName =>
      unfold elementAnnot
      dsimp only
      split
      · exact exists_holds_native _
      · exact ⟨_, .rawInt 0⟩

/-- A field that is not repeated is annotated with its element, or with `None` beside it if it is a
message. -/
theorem renderSingularField_annot :
    (renderSingularField index field).annot = .optional (elementAnnot index field.type) ∨
      (renderSingularField index field).annot = elementAnnot index field.type ∧
        ∀ typeName, field.type ≠ .message typeName := by
  unfold renderSingularField renderEnumField elementAnnot
  cases htype : field.type with
  | scalar s =>
      dsimp only [ProtoType.typeName, Option.bind_none]
      split
      · exact .inl rfl
      · exact .inr ⟨rfl, fun _ => nofun⟩
  | message typeName =>
      dsimp only [ProtoType.typeName, Option.bind_some]
      cases nativeWkt typeName <;> exact .inl rfl
  | enum typeName =>
      dsimp only [ProtoType.typeName, Option.bind_some]
      cases nativeWkt typeName with
      | some native => exact .inl rfl
      | none =>
          dsimp only
          split
          · exact .inl rfl
          · split <;> exact .inr ⟨rfl, fun _ => nofun⟩

/-- Every rendered line has a value that conforms to its annotation. -/
theorem exists_holds_line {line : FieldLine} (h : renderField index field = some line) :
    ∃ value, Holds w line.annot value := by
  have hempty : ∀ element : TypeExpr, Holds w (.list element) (.list []) := fun _ =>
    .list fun _ hmem => absurd hmem List.not_mem_nil
  unfold renderField at h
  split at h
  · obtain ⟨key, -, h⟩ := Option.bind_eq_some_iff.mp h
    obtain ⟨value, -, h⟩ := Option.bind_eq_some_iff.mp h
    cases h
    exact ⟨.dict [], .dict (fun _ hmem => absurd hmem List.not_mem_nil)
      fun _ hmem => absurd hmem List.not_mem_nil⟩
  · split at h
    · cases h
      exact ⟨_, hempty _⟩
    · cases h
      rcases @renderSingularField_annot index field with hannot | ⟨hannot, hne⟩
      · rw [hannot]
        exact ⟨_, .absent _⟩
      · rw [hannot]
        exact DictWorld.exists_holds (filled_elementAnnot fun typeName htype _ =>
          absurd htype (hne typeName))

end Values

namespace ModuleSet

variable {M : ModuleSet} {file : FileDescriptorProto} {repr : PyVal → String}

/-- **The annotations of a class** are those of the fields of its message. -/
theorem exists_field_of_annot {fr : Lib.Frame Obj} {p : String × DescriptorProto} {a : FieldHint}
    (ha : a ∈ (M.classOf file fr p).annots) :
    ∃ field ∈ p.2.field, ∃ line, renderField M.index field = some line ∧ a.annot = line.annot := by
  obtain ⟨entry, hentry, rfl⟩ := List.mem_map.mp ha
  obtain ⟨field, hfield, hrender⟩ := exists_of_mem_lines (mem_annotations hentry).1
  exact ⟨field, hfield, _, hrender, rfl⟩

/-- The classes of loaded modules are plain dataclasses. -/
theorem plain_of_world_cls (hloaded : M.Loaded) {id : ClassId} {cls : DictClass}
    (h : (M.world repr).cls id = some cls) : cls.Plain := by
  obtain ⟨file, hfile, p, hp, fr, -, rfl⟩ := exists_of_world_cls h
  obtain ⟨-, -, husable⟩ := SchemaValidator.validate_ok (hloaded.accepted file hfile)
  refine plain_classOf (fun field hfield => ?_) fr
  rintro hname
  have hfree := ((husable p hp).fields field hfield).2
  rw [hname] at hfree
  exact hfree (by decide)

/-- A loaded message has an instance. -/
theorem exists_instance (hloaded : M.Loaded) (hfile : file ∈ M.loaded)
    {p : String × DescriptorProto} (hp : p ∈ file.allMessages) (qualified : String) :
    ∃ value, Holds (M.world repr) (.named (.message p.1) qualified) value := by
  obtain ⟨cls, hcls⟩ : ∃ cls, (M.world repr).cls (M.idOf p.1) = some cls :=
    exists_world_cls hfile hp
  have hvalue : ∀ a ∈ cls.annots, ∃ value, Holds (M.world repr) a.annot value := by
    intro a ha
    obtain ⟨file', -, p', -, fr, -, rfl⟩ := exists_of_world_cls hcls
    obtain ⟨field, -, line, hrender, hannot⟩ := exists_field_of_annot ha
    rw [hannot]
    exact exists_holds_line hrender
  have : Nonempty PyVal := ⟨.pyNone⟩
  choose! value hvalue using hvalue
  exact ⟨_, DictWorld.holds_inst hcls (plain_of_world_cls hloaded hcls) hvalue⟩

/-- **The types that an annotation of a loaded class names have values.** -/
theorem filled_of_annot (hvalid : ProtocValid M.files) (hloaded : M.Loaded)
    (hfile : file ∈ M.loaded) {p : String × DescriptorProto} (hp : p ∈ file.allMessages)
    {field : FieldDescriptorProto} (hfield : field ∈ p.2.field) {line : FieldLine}
    (hrender : renderField M.index field = some line) :
    (M.world repr).Filled line.annot := by
  have htarget : ∀ target, mapTarget M.index field = some target →
      (M.world repr).Filled (elementAnnot M.index target.type) := by
    intro target htarget
    refine filled_elementAnnot fun typeName htype hnative => ?_
    obtain ⟨other, hother, msg, hmsg⟩ :=
      loaded_of_refers hvalid hloaded hfile hp hfield htarget htype hnative
    rw [htype]
    exact exists_instance hloaded hother hmsg _
  unfold renderField at hrender
  split at hrender
  · rename_i entry hentry
    obtain ⟨key, hkey, hrender⟩ := Option.bind_eq_some_iff.mp hrender
    obtain ⟨value, hvalue, hrender⟩ := Option.bind_eq_some_iff.mp hrender
    cases hrender
    have hpm : p ∈ messagesOf M.files := List.mem_flatMap.mpr
      ⟨file, hloaded.files file hfile, (FileDescriptorProto.mem_messages hp).1⟩
    obtain ⟨hmap, name, -, hmem⟩ := (mapEntry_eq_some hvalid.wellNamed hpm hfield).mp hentry
    obtain ⟨kv, hkv, hpair⟩ := (hvalid.messages _ hmem).entry hmap
    -- a map key is a scalar, which always has a value
    have hscalar : key.type.scalar?.isSome = true := by
      rw [keyValue_of_mem hkv, List.find?_cons, hpair.keyNumber] at hkey
      cases hkey
      exact hpair.keyScalar
    refine ⟨filled_elementAnnot fun typeName htype _ => ?_, htarget value ?_⟩
    · rw [htype] at hscalar
      cases hscalar
    · unfold mapTarget
      rw [hentry]
      exact hvalue
  · rename_i hentry
    have hself : mapTarget M.index field = some field := by
      unfold mapTarget
      rw [hentry]
    split at hrender
    · cases hrender
      exact htarget field hself
    · cases hrender
      rcases @renderSingularField_annot M.index field with hannot | ⟨hannot, -⟩
      · rw [hannot]
        exact htarget field hself
      · rw [hannot]
        exact htarget field hself

/-- **The classes of loaded modules are regular**: what dict conversion relies on for all of them. -/
theorem regular_world (hvalid : ProtocValid M.files) (hloaded : M.Loaded) :
    (M.world repr).Regular where
  plain := fun _ _ hcls => plain_of_world_cls hloaded hcls
  distinct := by
    intro full full' hsome hid
    obtain ⟨cls, hcls⟩ := Option.isSome_iff_exists.mp hsome
    obtain ⟨file, hfile, p, hp, fr, hfull, -⟩ := exists_of_world_cls hcls
    have hmem := mem_index_of_loaded hloaded hfile hp
    have hsame : p.1 = full := (idOf_inj hmem).mp hfull.symm
    have hsame' : p.1 = full' := (idOf_inj hmem).mp (hfull.symm.trans hid.symm)
    exact hsame'.symm.trans hsame
  filled := by
    intro id cls hcls a ha
    obtain ⟨file, hfile, p, hp, fr, -, rfl⟩ := exists_of_world_cls hcls
    obtain ⟨field, hfield, line, hrender, hannot⟩ := exists_field_of_annot ha
    rw [hannot]
    exact filled_of_annot hvalid hloaded hfile hp hfield hrender

/-! ## Dict conversion of generated messages -/

/-- What conforms to the annotation of a message is an instance of a loaded class. -/
theorem loaded_of_holds (hloaded : M.Loaded) {full qualified : String} {x : PyVal}
    (hx : Holds (M.world repr) (.named (.message full) qualified) x) :
    ∃ file ∈ M.loaded, ∃ p ∈ file.allMessages, p.1 = full := by
  cases hx with
  | message found _ _ =>
      obtain ⟨file, hfile, p, hp, fr, hid, -⟩ := exists_of_world_cls found
      exact ⟨file, hfile, p, hp, (idOf_inj (mem_index_of_loaded hloaded hfile hp)).mp hid.symm⟩

/-- **Dict conversion round-trips exactly when every class is faithful**: all instances of all
messages of the loaded modules survive `to_dict` and `from_dict` iff no nested type hides what the
conversion uses, every field is a field of the descriptor the class is bound to, and every annotation
denotes what it names. -/
theorem roundTrips_iff_faithful (hvalid : ProtocValid M.files) (hloaded : M.Loaded)
    (repr : PyVal → String) :
    (∀ file ∈ M.loaded, ∀ p ∈ file.allMessages, ∀ qualified x,
      Holds (M.world repr) (.named (.message p.1) qualified) x → (M.world repr).RoundTrips x) ↔
    ∀ file ∈ M.loaded, ∀ p ∈ file.allMessages, ∀ cls,
      (M.world repr).cls (M.idOf p.1) = some cls → (M.world repr).Faithful cls := by
  have hregular : (M.world repr).Regular := regular_world hvalid hloaded
  have hall := DictWorld.roundTrips_all_iff hregular
  constructor
  · intro h file hfile p hp cls hcls
    refine hall.mp (fun full qualified x hx => ?_) p.1 cls hcls
    obtain ⟨file', hfile', p', hp', rfl⟩ := loaded_of_holds hloaded hx
    exact h file' hfile' p' hp' qualified x hx
  · intro h file hfile p hp qualified x hx
    refine hall.mpr (fun full cls hcls => ?_) p.1 qualified x hx
    obtain ⟨file', hfile', p', hp', fr, hid, -⟩ := exists_of_world_cls hcls
    have hsame := (idOf_inj (mem_index_of_loaded hloaded hfile' hp')).mp hid.symm
    exact h file' hfile' p' hp' cls (hsame ▸ hcls)

/-- `message <part> { int32 x = 1; } message M { <part> part = 1; map<string, <part>> parts = 2;
repeated M all = 3; }`. -/
def partsFile (part : String) : FileDescriptorProto where
  name := "parts.proto"
  messageType := [
    { name := part
      field := [{ name := "x", number := 1, type := .scalar .int32 }] },
    { name := "M"
      field := [
        { name := "part", number := 1, type := .message ("." ++ part) },
        { name := "parts", number := 2, repeated := true, type := .message ".M.PartsEntry" },
        { name := "all", number := 3, repeated := true, type := .message ".M" }]
      nestedType := [
        { name := "PartsEntry"
          field := [{ name := "key", number := 1, type := .scalar .string },
            { name := "value", number := 2, type := .message ("." ++ part) }]
          options := some { mapEntry := true } }] }]

/-- The module of the file alone. -/
def partsModule (part : String) : ModuleSet := ⟨[partsFile part], [partsFile part]⟩

set_option maxRecDepth 20000 in
/-- The instances of messages with harmless names survive. -/
theorem roundTrips_iff_faithful_parts : (partsModule "Part").Loaded ∧
    ∀ p ∈ (partsFile "Part").allMessages, ∀ qualified x,
      Holds ((partsModule "Part").world fun _ => "") (.named (.message p.1) qualified) x →
        ((partsModule "Part").world fun _ => "").RoundTrips x := by
  have hvalid : ProtocValid (partsModule "Part").files := by decide
  have hloaded : (partsModule "Part").Loaded :=
    loaded_of_fileLoads _ (List.nodup_singleton _) (fun _ h => h) (by decide)
  have hfaithful : ∀ c ∈ (partsModule "Part").loaded.flatMap (partsModule "Part").moduleClasses,
      ((partsModule "Part").world fun _ => "").Faithful c.2 := by decide
  exact ⟨hloaded, (roundTrips_iff_faithful hvalid hloaded _).mpr
    (fun _ _ _ _ _ hcls => hfaithful _ (mem_of_lookup hcls)) _ List.mem_cons_self⟩

set_option maxRecDepth 20000 in
/-- **A message called `Descriptor` does not survive** as a field: `from_dict` takes its name in an
annotation for the class of the native core, and leaves the dict as it is. -/
theorem parts_descriptor_lost : ProtocValid (partsModule "Descriptor").files ∧
    (partsModule "Descriptor").Loaded ∧
    ¬ ∀ p ∈ (partsFile "Descriptor").allMessages, ∀ qualified x,
      Holds ((partsModule "Descriptor").world fun _ => "") (.named (.message p.1) qualified) x →
        ((partsModule "Descriptor").world fun _ => "").RoundTrips x := by
  have hvalid : ProtocValid (partsModule "Descriptor").files := by decide
  have hloaded : (partsModule "Descriptor").Loaded :=
    loaded_of_fileLoads _ (List.nodup_singleton _) (fun _ h => h) (by decide)
  refine ⟨hvalid, hloaded, fun h => ?_⟩
  have hfaithful := (DictWorld.roundTrips_all_iff (regular_world hvalid hloaded)).mp
    (fun full qualified x hx => by
      obtain ⟨file, hfile, p, hp, rfl⟩ := loaded_of_holds hloaded hx
      cases List.mem_singleton.mp hfile
      exact h p hp qualified x hx) ".M"
  -- `Descriptor` denotes the class of the runtime, so the nested message is not rebuilt
  have hlost : ∃ cls, ((partsModule "Descriptor").world fun _ => "").cls
        ((partsModule "Descriptor").idOf ".M") = some cls ∧
      ¬ ((partsModule "Descriptor").world fun _ => "").Faithful cls := by decide
  obtain ⟨cls, hcls, hnot⟩ := hlost
  exact hnot (hfaithful cls hcls)

end ModuleSet

end FastProto
