import FastProto.TypePaths

/-! # Top-level names of generated modules

A module binds the names of its header, then its enums, and for each message its constants and its
class. A top-level class, its own or an imported one, is found under its name exactly while no constant
behind it takes the name. -/

namespace FastProto

open Lib

/-! ## Distinct names -/

section Names

variable {files : List FileDescriptorProto} {file : FileDescriptorProto}

/-- The roots of a forest stand in it in order. -/
theorem roots_sublist_forest (scope : String) (msgs : List DescriptorProto) :
    (msgs.map fun msg => (scope ++ "." ++ msg.name, msg)).Sublist
      (forest (fun _ => true) scope msgs) := by
  induction msgs with
  | nil => exact List.Sublist.refl _
  | cons msg rest ih =>
      rw [forest, DescriptorProto.tree_eq, if_pos rfl, List.map_cons, List.cons_append]
      exact (ih.trans (List.sublist_append_right _ _)).cons_cons _

/-- The types of a file are indexed, its enums first and then its messages in order. -/
theorem names_sublist_index (file : FileDescriptorProto) :
    (file.enumType.map (fun enum => file.scope ++ "." ++ enum.name) ++ file.messages.map Prod.fst)
      |>.Sublist (file.index.map Prod.fst) := by
  rw [FileDescriptorProto.index, List.map_append, List.map_map, walkAll_eq]
  refine List.Sublist.append (List.Sublist.refl _) ?_
  rw [List.map_flatMap, ← List.flatMap_singleton' (file.messages.map Prod.fst), List.flatMap_map]
  exact List.Sublist.flatMap_right _ fun p _ => List.singleton_sublist.mpr List.mem_cons_self

/-- **The top-level classes of a module have distinct names.** -/
theorem nodup_topNames (hvalid : ProtocValid files) (hfile : file ∈ files) :
    (file.topClasses.map Prod.fst).Nodup := by
  have hindex : (file.index.map Prod.fst).Sublist ((TypeIndex.build files).map Prod.fst) := by
    obtain ⟨before, after, rfl⟩ := List.append_of_mem hfile
    rw [TypeIndex.build, List.flatMap_append, List.flatMap_cons]
    exact ((List.sublist_append_left _ _).trans (List.sublist_append_right _ _)).map _
  have hroots : (file.messageType.map fun msg => file.scope ++ "." ++ msg.name).Sublist
      (file.messages.map Prod.fst) := by
    have h := (roots_sublist_forest file.scope file.messageType).map Prod.fst
    rwa [List.map_map] at h
  have hfull := ((List.Sublist.append (List.Sublist.refl _) hroots).trans
    ((names_sublist_index file).trans hindex)).nodup hvalid.typeNames
  have hnames : (file.topLevelNames.map fun name => file.scope ++ "." ++ name).Nodup := by
    rw [FileDescriptorProto.topLevelNames, List.map_append, List.map_map, List.map_map]
    exact hfull
  rw [FileDescriptorProto.topClasses, names_classesIn]
  exact (List.Sublist.append (List.Sublist.refl _)
    (List.filter_sublist.map _)).nodup (List.Nodup.of_map _ hnames)

/-- Everything in the index of a file is said to be defined there. -/
theorem file_of_mem_index {full : String} {info : TypeInfo} (h : (full, info) ∈ file.index) :
    info.file = file.name := by
  rcases List.mem_append.mp h with h | h
  · obtain ⟨enum, -, heq⟩ := List.mem_map.mp h
    cases heq
    rfl
  · rw [walkAll_eq] at h
    obtain ⟨p, -, h⟩ := List.mem_flatMap.mp h
    rcases List.mem_cons.mp h with heq | h
    · cases heq
      rfl
    · obtain ⟨enum, -, heq⟩ := List.mem_map.mp h
      cases heq
      rfl

/-- A full name is defined in one file. -/
theorem file_unique (hvalid : ProtocValid files) (hfile : file ∈ files)
    {other : FileDescriptorProto} (hother : other ∈ files) {full : String}
    (h : full ∈ file.index.map Prod.fst) (h' : full ∈ other.index.map Prod.fst) : file = other := by
  obtain ⟨⟨_, info⟩, hmem, rfl⟩ := List.mem_map.mp h
  obtain ⟨⟨_, info'⟩, hmem', heq⟩ := List.mem_map.mp h'
  dsimp only at heq
  subst heq
  have hget := TypeIndex.get_of_mem hvalid.typeNames (List.mem_flatMap.mpr ⟨file, hfile, hmem⟩)
  have hget' := TypeIndex.get_of_mem hvalid.typeNames (List.mem_flatMap.mpr ⟨other, hother, hmem'⟩)
  rw [hget, Option.some.injEq] at hget'
  refine List.inj_on_of_nodup_map hvalid.fileNames hfile hother ?_
  rw [← file_of_mem_index hmem, ← file_of_mem_index hmem', hget']

/-- The classes and constants of a module are named after types of the file. -/
theorem named_of_mem_blocks {index : TypeIndex} {s : Stmt} (hs : s ∈ file.blocks index) :
    ∃ full ∈ file.index.map Prod.fst, s.binding.2.protoName = some full := by
  have hmessages : ∀ {p}, p ∈ file.messages → p.1 ∈ file.index.map Prod.fst := fun hp =>
    (names_sublist_index file).subset (List.mem_append_right _ (List.mem_map_of_mem hp))
  rcases FileDescriptorProto.mem_blocks.mp hs with ⟨enum, henum, rfl⟩ |
    ⟨root, hroot, -, ⟨q, hq, rfl⟩ | rfl⟩
  · exact ⟨_, (names_sublist_index file).subset
      (List.mem_append_left _ (List.mem_map_of_mem henum)), rfl⟩
  · refine ⟨q.1, hmessages (FileDescriptorProto.mem_messages ?_).1, rfl⟩
    rw [FileDescriptorProto.allMessages, forest_eq]
    exact List.mem_flatMap.mpr ⟨root, hroot, hq⟩
  · exact ⟨_, hmessages (file.root_mem hroot), rfl⟩

end Names

/-! ## The statements of a module -/

section Blocks

variable {index : TypeIndex} {file : FileDescriptorProto}

/-- Dropping messages that are not kept changes no forest. -/
theorem forest_filter {keep : DescriptorProto → Bool} {scope : String}
    (msgs : List DescriptorProto) :
    forest keep scope (msgs.filter keep) = forest keep scope msgs := by
  induction msgs with
  | nil => rfl
  | cons msg rest ih =>
      rw [List.filter_cons, forest]
      split
      · rw [forest, ih]
      · rename_i hkeep
        rw [ih, DescriptorProto.tree_eq, if_neg hkeep, List.nil_append]

/-- The classes among what the messages of a module bind. -/
theorem classes_of_messages (roots : List DescriptorProto) :
    ((roots.flatMap (file.renderMessage index)).map Stmt.binding).filter (·.2.isClass)
      = roots.map fun msg => (msg.name, .messageClass (file.scope ++ "." ++ msg.name)) := by
  induction roots with
  | nil => rfl
  | cons root rest ih =>
      have hconstants : ((collectConstants index file.scope root).map Stmt.binding).filter
          (·.2.isClass) = [] := by
        rw [List.filter_eq_nil_iff, collectConstants, List.map_map]
        intro b hb
        obtain ⟨q, -, rfl⟩ := List.mem_map.mp hb
        exact Bool.false_ne_true
      rw [List.flatMap_cons, List.map_append, List.filter_append, ih,
        FileDescriptorProto.renderMessage, List.map_append, List.filter_append, hconstants,
        DescriptorProto.renderClass_eq]
      rfl

/-- **The classes among what a module binds** are its top-level classes, in order. -/
theorem classes_of_blocks : ((file.blocks index).map Stmt.binding).filter (·.2.isClass)
    = file.topClasses := by
  have henums : ((file.enumType.map (enumStmt file.scope)).map Stmt.binding).filter (·.2.isClass)
      = (file.enumType.map (enumStmt file.scope)).map Stmt.binding := by
    rw [List.filter_eq_self, List.map_map]
    intro b hb
    obtain ⟨enum, -, rfl⟩ := List.mem_map.mp hb
    rfl
  rw [FileDescriptorProto.blocks, List.map_append, List.filter_append, henums, classes_of_messages,
    List.map_map]
  rfl

/-- **The constants among what messages bind** are those of all messages in their trees. -/
theorem constants_of_messages {roots : List DescriptorProto} {name : String} :
    (∀ b ∈ (roots.flatMap (file.renderMessage index)).map Stmt.binding, b.2.isClass = false →
        b.1 ≠ name) ↔
      ∀ q ∈ forest DescriptorProto.isUserFacing file.scope roots, constName index q.1 ≠ name := by
  rw [forest_eq]
  constructor
  · intro h q hq
    obtain ⟨root, hroot, hq⟩ := List.mem_flatMap.mp hq
    refine h (constName index q.1, .descriptor q.1) ?_ rfl
    refine List.mem_map.mpr ⟨.constant (constName index q.1) q.1, List.mem_flatMap.mpr
      ⟨root, hroot, List.mem_append_left _ (List.mem_map.mpr ⟨q, hq, rfl⟩)⟩, rfl⟩
  · intro h b hb hclass
    obtain ⟨s, hs, rfl⟩ := List.mem_map.mp hb
    obtain ⟨root, hroot, hs⟩ := List.mem_flatMap.mp hs
    rcases List.mem_append.mp hs with hs | hs
    · obtain ⟨q, hq, rfl⟩ := List.mem_map.mp hs
      exact h q (List.mem_flatMap.mpr ⟨root, hroot, hq⟩)
    · rw [List.mem_singleton.mp hs, DescriptorProto.renderClass_eq] at hclass
      cases hclass

/-- The constants in front of the class of a top-level message. -/
theorem constants_before {earlier : List DescriptorProto} {root : DescriptorProto}
    {name : String} :
    (∀ b ∈ (earlier.flatMap (file.renderMessage index)
        ++ collectConstants index file.scope root).map Stmt.binding, b.2.isClass = false →
          b.1 ≠ name) ↔
      ∀ q ∈ forest DescriptorProto.isUserFacing file.scope (earlier ++ [root]),
        constName index q.1 ≠ name := by
  rw [List.map_append, List.forall_mem_append, constants_of_messages, forest_eq, forest_eq,
    List.flatMap_append, List.forall_mem_append, List.flatMap_singleton]
  refine and_congr_right fun _ => ?_
  rw [collectConstants, List.map_map, List.forall_mem_map]
  exact forall₂_congr fun q _ => ⟨fun h => h rfl, fun h _ => h⟩

end Blocks

/-! ## Own classes -/

/-- The messages whose constants stand behind a top-level class in its module. -/
def FileDescriptorProto.messagesBehind (file : FileDescriptorProto) (name : String) :
    List (String × DescriptorProto) :=
  if name ∈ file.enumType.map (·.name) then file.allMessages
  else
    forest DescriptorProto.isUserFacing file.scope
      ((file.messageType.filter (·.isUserFacing)).dropWhile (·.name != name)).tail

/-- **A top-level class keeps its name** in its module: no constant behind it takes the name. -/
def KeepsName (index : TypeIndex) (file : FileDescriptorProto) (name : String) : Prop :=
  ∀ q ∈ file.messagesBehind name, constName index q.1 ≠ name

/-- **A top-level class is kept in a module** that refers to it: it keeps its name where it is defined,
and in another module no constant takes the name. -/
def Kept (index : TypeIndex) (file other : FileDescriptorProto) (name : String) : Prop :=
  KeepsName index other name ∧
    (other ≠ file → ∀ q ∈ file.allMessages, constName index q.1 ≠ name)

/-- **A top-level class is kept until a class begins**: the same, with the constants of the messages
so far. -/
def KeptBefore (index : TypeIndex) (file other : FileDescriptorProto)
    (roots : List DescriptorProto) (name : String) : Prop :=
  (other ≠ file → KeepsName index other name) ∧
    ∀ q ∈ forest DescriptorProto.isUserFacing file.scope roots, constName index q.1 ≠ name

/-- The messages behind a top-level message. -/
theorem messagesBehind_message {files : List FileDescriptorProto} {file : FileDescriptorProto}
    (hvalid : ProtocValid files) (hfile : file ∈ files) {earlier later : List DescriptorProto}
    {root : DescriptorProto}
    (hsplit : file.messageType.filter (·.isUserFacing) = earlier ++ root :: later) :
    file.messagesBehind root.name = forest DescriptorProto.isUserFacing file.scope later := by
  have hnames := nodup_topNames hvalid hfile
  rw [FileDescriptorProto.topClasses, names_classesIn, hsplit, List.map_append,
    List.map_cons, ← List.append_assoc] at hnames
  have hnot := (List.nodup_cons.mp (List.nodup_middle.mp hnames)).1
  rw [List.mem_append, not_or, List.mem_append, not_or] at hnot
  obtain ⟨⟨henum, hearlier⟩, -⟩ := hnot
  rw [FileDescriptorProto.messagesBehind, if_neg henum, hsplit, List.dropWhile_append_of_pos,
    List.dropWhile_cons_of_neg (by simp)]
  · rfl
  · intro msg hmsg
    rw [bne_iff_ne]
    exact fun heq => hearlier (heq ▸ List.mem_map_of_mem hmsg)

namespace ModuleSet

variable {M : ModuleSet} {file : FileDescriptorProto} {name found : String} {obj : Obj}

section Own

variable {fr : Lib.Frame Obj}

/-- **A class is found while no constant behind it takes its name**: the classes behind it have other
names. -/
theorem lookup_class_iff (hvalid : ProtocValid M.files) (hfile : file ∈ M.files)
    (hcls : fr.cls = none) (hclass : obj.isClass = true) (hfr : ∀ b ∈ fr.locals, b.2 ≠ obj)
    {front : List Stmt} {before after later : List (String × Obj)}
    (hblocks : (file.blocks M.index).map Stmt.binding
      = before ++ (name, obj) :: (after ++ later))
    (hfront : front.map Stmt.binding = before ++ (name, obj) :: after) :
    (scopeAfter fr front).locals.lookup found = some obj ↔
      name = found ∧ ∀ b ∈ after, b.2.isClass = false → b.1 ≠ name := by
  have hclasses := @classes_of_blocks M.index file
  rw [hblocks, List.filter_append, List.filter_cons_of_pos (by exact hclass),
    List.filter_append] at hclasses
  have hother := ne_of_split (nodup_topNames hvalid hfile) hclasses.symm
  have hne : ∀ b ∈ before ++ after, b.2 ≠ obj := by
    rintro b hb rfl
    refine (hother b ?_).2 rfl
    rcases List.mem_append.mp hb with hb | hb
    · exact List.mem_append_left _ (List.mem_filter.mpr ⟨hb, hclass⟩)
    · exact List.mem_append_right _
        (List.mem_append_left _ (List.mem_filter.mpr ⟨hb, hclass⟩))
  rw [scopeAfter, hfront, Lib.Frame.lookup_bindAll_iff hfr
    (fun b hb => hne b (List.mem_append_left _ hb))
    (fun b hb => hne b (List.mem_append_right _ hb)), hcls, mangle_none]
  refine and_congr_right fun heq => ?_
  subst heq
  refine forall₂_congr fun b hb => ?_
  rw [mangle_none]
  refine ⟨fun h _ => h, fun h => ?_⟩
  cases hb' : b.2.isClass with
  | false => exact h hb'
  | true =>
      exact (hother b (List.mem_append_right _
        (List.mem_append_left _ (List.mem_filter.mpr ⟨hb, hb'⟩)))).1

/-- What stands in front of a top-level enum, and behind it. -/
theorem blocks_enum {enum : EnumDescriptorProto} {before after : List EnumDescriptorProto}
    (hsplit : file.enumType = before ++ enum :: after) {front rest : List Stmt}
    (hfront : front = file.enumType.map (enumStmt file.scope) ++ rest) :
    front.map Stmt.binding
      = (before.map (enumStmt file.scope)).map Stmt.binding
        ++ (enum.name, .enumClass (file.scope ++ "." ++ enum.name))
          :: ((after.map (enumStmt file.scope)).map Stmt.binding ++ rest.map Stmt.binding) := by
  rw [hfront, hsplit]
  simp only [List.map_append, List.map_cons, List.append_assoc, List.cons_append]
  rfl

/-- Enums are no constants. -/
theorem enums_are_classes {enums : List EnumDescriptorProto} {rest : List (String × Obj)} :
    (∀ b ∈ (enums.map (enumStmt file.scope)).map Stmt.binding ++ rest, b.2.isClass = false →
        b.1 ≠ name) ↔ ∀ b ∈ rest, b.2.isClass = false → b.1 ≠ name := by
  refine ⟨fun h b hb => h b (List.mem_append_right _ hb), fun h b hb hclass => ?_⟩
  rcases List.mem_append.mp hb with hb | hb
  · rw [List.map_map] at hb
    obtain ⟨enum, -, rfl⟩ := List.mem_map.mp hb
    cases hclass
  · exact h b hb hclass

/-- **A top-level class is found in the finished module** while it keeps its name. -/
theorem lookup_topClass (hvalid : ProtocValid M.files) (hfile : file ∈ M.files)
    (hcls : fr.cls = none) (hfr : ∀ b ∈ fr.locals, b.2 ≠ obj) (h : (name, obj) ∈ file.topClasses) :
    (scopeAfter fr (file.blocks M.index)).locals.lookup found = some obj ↔
      name = found ∧ KeepsName M.index file name := by
  have hclass := (protoName_of_mem h).2
  rcases mem_classesIn.mp h with ⟨enum, henum, rfl, rfl⟩ | ⟨root, hroot, hkeep, rfl, rfl⟩
  · obtain ⟨before, after, hsplit⟩ := List.append_of_mem henum
    have hblocks := blocks_enum hsplit (show file.blocks M.index = _ from rfl)
    rw [lookup_class_iff hvalid hfile hcls hclass hfr
      (by rw [List.append_nil]; exact hblocks) hblocks, enums_are_classes, constants_of_messages,
      forest_filter, KeepsName, FileDescriptorProto.messagesBehind,
      if_pos (List.mem_map_of_mem henum)]
    rfl
  · obtain ⟨earlier, later, hsplit⟩ := List.append_of_mem (List.mem_filter.mpr ⟨hroot, hkeep⟩)
    have hblocks : (file.blocks M.index).map Stmt.binding
        = (file.beforeClass M.index earlier root).map Stmt.binding
          ++ (root.name, .messageClass (file.scope ++ "." ++ root.name))
            :: (later.flatMap (file.renderMessage M.index)).map Stmt.binding := by
      rw [FileDescriptorProto.blocks_split hsplit, List.map_append]
      rfl
    rw [lookup_class_iff hvalid hfile hcls hclass hfr
      (by rw [List.append_nil]; exact hblocks) hblocks, constants_of_messages, KeepsName,
      messagesBehind_message hvalid hfile hsplit]

/-- **A top-level enum is found when a message class begins** while no constant so far takes its
name. -/
theorem lookup_enum_before (hvalid : ProtocValid M.files) (hfile : file ∈ M.files)
    (hcls : fr.cls = none) {enum : EnumDescriptorProto} (henum : enum ∈ file.enumType)
    (hfr : ∀ b ∈ fr.locals, b.2 ≠ .enumClass (file.scope ++ "." ++ enum.name))
    {earlier later : List DescriptorProto} {root : DescriptorProto}
    (hsplit : file.messageType.filter (·.isUserFacing) = earlier ++ root :: later) :
    (scopeAfter fr (file.beforeClass M.index earlier root)).locals.lookup found
        = some (.enumClass (file.scope ++ "." ++ enum.name)) ↔
      enum.name = found ∧ ∀ q ∈ forest DescriptorProto.isUserFacing file.scope (earlier ++ [root]),
        constName M.index q.1 ≠ enum.name := by
  obtain ⟨before, after, henums⟩ := List.append_of_mem henum
  have hfront := blocks_enum henums (show file.beforeClass M.index earlier root = _ from
    List.append_assoc ..)
  have hblocks := congrArg (List.map Stmt.binding) (@FileDescriptorProto.blocks_split M.index _ _ _ _
    hsplit)
  rw [List.map_append, hfront, List.append_assoc,
    List.cons_append] at hblocks
  rw [lookup_class_iff hvalid hfile hcls rfl hfr hblocks hfront, enums_are_classes,
    constants_before]

end Own

/-! ## Imported classes -/

section Imported

variable {other : FileDescriptorProto}

/-- What the header binds. -/
theorem mem_header {b : String × Obj} : b ∈ (M.header file).locals ↔
    (∃ name ∈ file.runtimeNames M.index, b = (name, .runtime name)) ∨ b ∈ M.imports file := by
  rw [header, FileDescriptorProto.headerFrame, Lib.Frame.locals_bindAll, List.append_nil,
    List.mem_reverse]
  simp only [mangle_none, Prod.mk.eta, List.map_id', List.mem_append, List.mem_map,
    eq_comm (b := b)]

/-- An export is a class or a constant of the other file. -/
theorem exported_named (h : M.exported other name = some obj) :
    ∃ full ∈ other.index.map Prod.fst, obj.protoName = some full := by
  have hmem := mem_of_lookup h
  rw [scopeAfter, Lib.Frame.locals_bindAll, List.append_nil, List.mem_reverse, List.map_map] at hmem
  obtain ⟨s, hs, heq⟩ := List.mem_map.mp hmem
  cases heq
  exact named_of_mem_blocks hs

/-- What a module exports as a class is its own top-level class. -/
theorem exported_iff (hvalid : ProtocValid M.files) (hother : other ∈ M.files)
    (h : (name, obj) ∈ other.topClasses) :
    M.exported other found = some obj ↔ name = found ∧ KeepsName M.index other name := by
  rw [exported]
  exact lookup_topClass hvalid hother rfl (by simp) h

/-- An import is an export of a file that the module needs. -/
theorem exists_of_mem_imports (hvalid : ProtocValid M.files) (hfile : file ∈ M.files)
    (h : (name, obj) ∈ M.imports file) : ∃ other ∈ M.files,
      External M.files file ⟨other.name, name⟩ ∧ M.exported other name = some obj := by
  unfold imports at h
  cases hexternal : file.externalImports M.index with
  | error e =>
      rw [hexternal] at h
      cases h
  | ok imported =>
      rw [hexternal] at h
      obtain ⟨⟨top, protoName⟩, hi, hsome⟩ := List.mem_filterMap.mp h
      obtain ⟨obj, hobj, heq⟩ := Option.map_eq_some_iff.mp hsome
      cases heq
      obtain ⟨other, hother, hexported⟩ := Option.bind_eq_some_iff.mp hobj
      have hname : other.name = protoName := by simpa using List.find?_some hother
      refine ⟨other, List.mem_of_find?_eq_some hother, ?_, hexported⟩
      rw [hname]
      exact (mem_externalImports hvalid.wellNamed hfile hexternal).mp hi

/-- A file that the module needs is imported from. -/
theorem mem_imports (hvalid : ProtocValid M.files) (hfile : file ∈ M.files)
    {imported : List (String × String)} (hok : file.externalImports M.index = .ok imported)
    (hother : other ∈ M.files) (hneeded : External M.files file ⟨other.name, name⟩)
    (h : M.exported other name = some obj) : (name, obj) ∈ M.imports file := by
  unfold imports
  rw [hok]
  refine List.mem_filterMap.mpr
    ⟨(name, other.name), (mem_externalImports hvalid.wellNamed hfile hok).mpr hneeded, ?_⟩
  have hfind : M.files.find? (fun f => f.name == other.name) = some other := by
    cases hfound : M.files.find? (fun f => f.name == other.name) with
    | none => exact absurd (List.find?_eq_none.mp hfound other hother) (by simp)
    | some f =>
        have hname : f.name = other.name := by simpa using List.find?_some hfound
        rw [List.inj_on_of_nodup_map hvalid.fileNames (List.mem_of_find?_eq_some hfound) hother hname]
  dsimp only
  rw [hfind, Option.bind_some, h]
  rfl

/-- What a module imports is defined elsewhere. -/
theorem ne_of_external (hneeded : External M.files file ⟨other.name, name⟩) : other ≠ file := by
  obtain ⟨definer, -, hdefiner, hne, -⟩ := hneeded
  rintro rfl
  exact hne hdefiner

/-- **The header binds nothing that is named after a type of the file.** -/
theorem header_ne (hvalid : ProtocValid M.files) (hfile : file ∈ M.files) {full : String}
    (hfull : full ∈ file.index.map Prod.fst) (hobj : obj.protoName = some full) :
    ∀ b ∈ (M.header file).locals, b.2 ≠ obj := by
  rintro ⟨name, obj'⟩ hb heq
  dsimp only at heq
  subst heq
  rcases mem_header.mp hb with ⟨runtime, -, heq⟩ | himport
  · cases heq
    cases hobj
  · obtain ⟨other, hother, hneeded, hexported⟩ := exists_of_mem_imports hvalid hfile himport
    obtain ⟨full', hfull', hobj'⟩ := exported_named hexported
    rw [hobj, Option.some.injEq] at hobj'
    subst hobj'
    exact ne_of_external hneeded (file_unique hvalid hother hfile hfull' hfull)

/-- The names that an accepted module sees do not collide. -/
theorem not_collides (hvalid : ProtocValid M.files) (hfile : file ∈ M.files)
    {imported : List (String × String)} (hok : file.externalImports M.index = .ok imported) :
    ¬ Collides M.files file := by
  rw [← consider_error_iff hvalid.wellNamed hfile fun t =>
    Iff.refl (t ∈ file.referencedTypeNames (TypeIndex.build M.files))]
  rintro ⟨e, herr⟩
  obtain ⟨st', hfold, -⟩ := bind_eq_ok.mp hok
  rw [show M.index = TypeIndex.build M.files from rfl, herr] at hfold
  cases hfold

/-- The names of the top-level classes are those of top-level types. -/
theorem mem_topLevelNames (h : (name, obj) ∈ file.topClasses) : name ∈ file.topLevelNames := by
  rcases mem_classesIn.mp h with ⟨enum, henum, rfl, -⟩ | ⟨msg, hmsg, -, rfl, -⟩
  · exact List.mem_append_left _ (List.mem_map_of_mem henum)
  · exact List.mem_append_right _ (List.mem_map_of_mem hmsg)

/-- No own class has the name of an imported one. -/
theorem topClass_ne_imported (hclean : ¬ Collides M.files file)
    (hneeded : External M.files file ⟨other.name, name⟩) {b : String × Obj}
    (hb : b ∈ file.topClasses) : b.1 ≠ name := by
  rintro rfl
  have hne : file.name ≠ other.name := by
    obtain ⟨definer, -, hdefiner, hne, -⟩ := hneeded
    exact fun heq => hne (hdefiner.trans heq.symm)
  exact hclean ⟨⟨file.name, b.1⟩, ⟨other.name, b.1⟩, .inl ⟨rfl, mem_topLevelNames hb⟩,
    .inr hneeded, fun heq => hne (TopLevel.mk.inj heq).1, rfl⟩

/-- **An imported class is found** while it keeps its name in its own module, and no statement of this
one takes the name. -/
theorem lookup_imported (hvalid : ProtocValid M.files) (hfile : file ∈ M.files)
    {imported : List (String × String)} (hok : file.externalImports M.index = .ok imported)
    (hother : other ∈ M.files) (hneeded : External M.files file ⟨other.name, name⟩)
    (h : (name, obj) ∈ other.topClasses) {front : List Stmt}
    (hfront : ∀ s ∈ front, s ∈ file.blocks M.index) :
    (scopeAfter (M.header file) front).locals.lookup found = some obj ↔
      name = found ∧ KeepsName M.index other name ∧ ∀ s ∈ front, s.binding.1 ≠ name := by
  have hclean := not_collides hvalid hfile hok
  have hlocals : (scopeAfter (M.header file) front).locals
      = (front.map Stmt.binding).reverse ++ (M.header file).locals := by
    rw [scopeAfter, Lib.Frame.locals_bindAll, header_cls]
    simp only [mangle_none, Prod.mk.eta, List.map_id']
  have hfound : ∀ {name'}, (front.map Stmt.binding).reverse.lookup name' = none ↔
      ∀ s ∈ front, s.binding.1 ≠ name' := by
    intro name'
    rw [lookup_eq_none_iff_not_mem, List.map_reverse, List.mem_reverse, List.map_map]
    exact ⟨fun hnot s hs heq => hnot (List.mem_map.mpr ⟨s, hs, heq⟩), fun hall hmem => by
      obtain ⟨s, hs, heq⟩ := List.mem_map.mp hmem
      exact hall s hs heq⟩
  have hfull := (protoName_of_mem h).1
  have hindexed : ∃ full ∈ other.index.map Prod.fst, obj.protoName = some full := by
    refine ⟨_, ?_, hfull⟩
    have hmem : (name, obj) ∈ ((other.blocks M.index).map Stmt.binding).filter (·.2.isClass) := by
      rw [classes_of_blocks]
      exact h
    obtain ⟨s, hs, hbinding⟩ := List.mem_map.mp (List.mem_filter.mp hmem).1
    obtain ⟨full, hmem, hname⟩ := named_of_mem_blocks hs
    rw [hbinding, hfull, Option.some.injEq] at hname
    rwa [hname]
  obtain ⟨full, hmemFull, hfull'⟩ := hindexed
  have hforeign : ∀ s ∈ file.blocks M.index, s.binding.2 ≠ obj := by
    rintro s hs rfl
    obtain ⟨full', hmem', hfull''⟩ := named_of_mem_blocks hs
    rw [hfull', Option.some.injEq] at hfull''
    subst hfull''
    exact ne_of_external hneeded (file_unique hvalid hother hfile hmemFull hmem')
  -- what is imported under the name is the export of the file
  have hunique : ∀ {obj'}, (name, obj') ∈ M.imports file → M.exported other name = some obj' := by
    intro obj' hobj'
    obtain ⟨other', hother', hneeded', hexported⟩ := exists_of_mem_imports hvalid hfile hobj'
    have hsame : other'.name = other.name := by
      by_contra hne
      exact hclean ⟨_, _, .inr hneeded', .inr hneeded, fun heq => hne (TopLevel.mk.inj heq).1, rfl⟩
    rwa [List.inj_on_of_nodup_map hvalid.fileNames hother' hother hsame] at hexported
  rw [hlocals, List.lookup_append]
  constructor
  · intro hlookup
    have hnone : (front.map Stmt.binding).reverse.lookup found = none := by
      cases hown : (front.map Stmt.binding).reverse.lookup found with
      | none => rfl
      | some obj' =>
          rw [hown, Option.some_or, Option.some.injEq] at hlookup
          subst hlookup
          obtain ⟨s, hs, heq⟩ := List.mem_map.mp (List.mem_reverse.mp (mem_of_lookup hown))
          exact absurd (congrArg Prod.snd heq) (hforeign s (hfront s hs))
    rw [hnone, Option.none_or] at hlookup
    rcases mem_header.mp (mem_of_lookup hlookup) with ⟨runtime, -, heq⟩ | himport
    · cases heq
      cases hfull
    · obtain ⟨other', hother', -, hexported⟩ := exists_of_mem_imports hvalid hfile himport
      obtain ⟨full'', hmem'', hname''⟩ := exported_named hexported
      rw [hfull', Option.some.injEq] at hname''
      subst hname''
      obtain rfl := file_unique hvalid hother hother' hmemFull hmem''
      obtain ⟨rfl, hkeeps⟩ := (exported_iff hvalid hother h).mp hexported
      exact ⟨rfl, hkeeps, hfound.mp hnone⟩
  · rintro ⟨rfl, hkeeps, hfree⟩
    have hexported := (exported_iff hvalid hother h).mpr ⟨rfl, hkeeps⟩
    have himport := mem_imports hvalid hfile hok hother hneeded hexported
    rw [hfound.mpr hfree, Option.none_or, header, FileDescriptorProto.headerFrame,
      Lib.Frame.locals_bindAll, List.append_nil]
    simp only [mangle_none, Prod.mk.eta, List.map_id']
    rw [List.reverse_append, List.lookup_append]
    cases hlast : (M.imports file).reverse.lookup name with
    | none =>
        refine absurd ?_ (lookup_eq_none_iff_not_mem.mp hlast)
        exact List.mem_map_of_mem (f := Prod.fst) (List.mem_reverse.mpr himport)
    | some obj' =>
        rw [Option.some_or, ← hexported]
        exact (hunique (List.mem_reverse.mp (mem_of_lookup hlast))).symm

/-- Where the classes have other names, only constants can take one. -/
theorem forall_name_ne_iff {index : TypeIndex} (hclasses : ∀ b ∈ file.topClasses, b.1 ≠ name)
    {front : List Stmt} (hfront : ∀ s ∈ front, s ∈ file.blocks index) :
    (∀ s ∈ front, s.binding.1 ≠ name) ↔
      ∀ b ∈ front.map Stmt.binding, b.2.isClass = false → b.1 ≠ name := by
  rw [List.forall_mem_map]
  refine forall₂_congr fun s hs => ⟨fun h _ => h, fun h => ?_⟩
  cases hclass : s.binding.2.isClass with
  | false => exact h hclass
  | true =>
      refine hclasses _ ?_
      rw [← @classes_of_blocks index]
      exact List.mem_filter.mpr ⟨List.mem_map_of_mem (hfront s hs), hclass⟩

end Imported

/-! ## Visible classes -/

section Visible

variable {other : FileDescriptorProto} (hvalid : ProtocValid M.files) (hfile : file ∈ M.files)
  {imported : List (String × String)} (hok : file.externalImports M.index = .ok imported)
  (hother : other ∈ M.files) (hvisible : other = file ∨ External M.files file ⟨other.name, name⟩)

include hvalid hfile

/-- The header binds no own class. -/
theorem header_ne_topClass (h : (name, obj) ∈ file.topClasses) :
    ∀ b ∈ (M.header file).locals, b.2 ≠ obj := by
  have hmem : (name, obj) ∈ ((file.blocks M.index).map Stmt.binding).filter (·.2.isClass) := by
    rw [classes_of_blocks]
    exact h
  obtain ⟨s, hs, hbinding⟩ := List.mem_map.mp (List.mem_filter.mp hmem).1
  obtain ⟨full, hfull, hname⟩ := named_of_mem_blocks hs
  rw [hbinding] at hname
  exact header_ne hvalid hfile hfull hname

include hok hother hvisible

/-- **A visible class is found in the finished module** under its name while it is kept. -/
theorem lookup_visible (h : (name, obj) ∈ other.topClasses) :
    (M.moduleScope file).locals.lookup found = some obj ↔
      name = found ∧ Kept M.index file other name := by
  by_cases hown : other = file
  · subst hown
    rw [moduleScope, lookup_topClass hvalid hother (header_cls M other)
      (header_ne_topClass hvalid hother h) h, Kept, and_iff_left (fun hne => absurd rfl hne)]
  · have hneeded := hvisible.resolve_left hown
    rw [moduleScope, lookup_imported hvalid hfile hok hother hneeded h fun _ hs => hs,
      forall_name_ne_iff (fun b => topClass_ne_imported (not_collides hvalid hfile hok) hneeded)
        fun _ hs => hs,
      FileDescriptorProto.blocks, List.map_append, enums_are_classes, constants_of_messages,
      forest_filter, Kept]
    exact and_congr_right fun _ => and_congr_right fun _ => ⟨fun hfree _ => hfree,
      fun hfree => hfree hown⟩

/-- **A visible enum is found when a message class begins** under its name while it is kept. -/
theorem lookup_visible_before {enum : EnumDescriptorProto} (henum : enum ∈ other.enumType)
    (hname : name = enum.name) {earlier later : List DescriptorProto} {root : DescriptorProto}
    (hsplit : file.messageType.filter (·.isUserFacing) = earlier ++ root :: later) :
    (M.beforeRoot file earlier root).locals.lookup found
        = some (.enumClass (other.scope ++ "." ++ enum.name)) ↔
      name = found ∧ KeptBefore M.index file other (earlier ++ [root]) name := by
  subst hname
  have h : (enum.name, .enumClass (other.scope ++ "." ++ enum.name)) ∈ other.topClasses :=
    mem_classesIn.mpr (.inl ⟨enum, henum, rfl, rfl⟩)
  by_cases hown : other = file
  · subst hown
    rw [beforeRoot, lookup_enum_before hvalid hother (header_cls M other) henum
      (header_ne_topClass hvalid hother h) hsplit, KeptBefore,
      and_iff_right fun hne => absurd rfl hne]
  · have hneeded := hvisible.resolve_left hown
    have hfront : ∀ s ∈ file.beforeClass M.index earlier root, s ∈ file.blocks M.index := by
      intro s hs
      rw [FileDescriptorProto.blocks_split hsplit]
      exact List.mem_append_left _ hs
    rw [beforeRoot, lookup_imported hvalid hfile hok hother hneeded h hfront,
      forall_name_ne_iff (fun b => topClass_ne_imported (not_collides hvalid hfile hok) hneeded)
        hfront,
      FileDescriptorProto.beforeClass, List.append_assoc, @List.map_append _ _ _ (file.enumType.map _),
      enums_are_classes, constants_before, KeptBefore]
    exact and_congr_right fun _ => and_congr_left fun _ => ⟨fun hkeeps _ => hkeeps,
      fun hkeeps => hkeeps hown⟩

end Visible

end ModuleSet

end FastProto
