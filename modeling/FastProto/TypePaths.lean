import FastProto.Classify
import FastProto.DescriptorBinding
import Mathlib.Data.List.Flatten

/-! # Paths to generated classes

Generated code names a type by a path: its container among the names of a module, then nested classes
in the bodies of their containers. `follow_iff_walkable` says which paths lead to the class of a type:
no name on the way may be rewritten or bound again. -/

namespace FastProto

open Lib

/-! ## Classes of a scope -/

/-- The classes for the types of one scope by their names, enums first. -/
def classesIn (scope : String) (enums : List EnumDescriptorProto) (msgs : List DescriptorProto) :
    List (String × Obj) :=
  enums.map (fun enum => (enum.name, .enumClass (scope ++ "." ++ enum.name)))
    ++ (msgs.filter (·.isUserFacing)).map fun msg =>
      (msg.name, .messageClass (scope ++ "." ++ msg.name))

/-- The classes in the body of the class of a message. -/
def nestedClasses (p : String × DescriptorProto) : List (String × Obj) :=
  classesIn p.1 p.2.enumType p.2.nestedType

/-- The classes at the top level of a module. -/
def FileDescriptorProto.topClasses (file : FileDescriptorProto) : List (String × Obj) :=
  classesIn file.scope file.enumType file.messageType

/-- The full name of what an object was generated for. -/
def Obj.protoName : Obj → Option String
  | .enumClass full | .messageClass full | .descriptor full => some full
  | .builtin _ | .runtime _ | .value => none

/-- Whether an object is a generated class. -/
def Obj.isClass : Obj → Bool
  | .enumClass _ | .messageClass _ => true
  | _ => false

section ClassesIn

variable {scope name : String} {enums : List EnumDescriptorProto} {msgs : List DescriptorProto}
  {obj : Obj}

/-- A class of a scope, of an enum or of a user-facing message. -/
theorem mem_classesIn : (name, obj) ∈ classesIn scope enums msgs ↔
    (∃ enum ∈ enums, name = enum.name ∧ obj = .enumClass (scope ++ "." ++ enum.name)) ∨
    ∃ msg ∈ msgs, msg.isUserFacing = true ∧ name = msg.name ∧
      obj = .messageClass (scope ++ "." ++ msg.name) := by
  simp only [classesIn, List.mem_append, List.mem_map, List.mem_filter, Prod.mk.injEq, and_assoc,
    eq_comm (b := name), eq_comm (b := obj)]

/-- The class of a scope has the full name that its name has there. -/
theorem protoName_of_mem (h : (name, obj) ∈ classesIn scope enums msgs) :
    obj.protoName = some (scope ++ "." ++ name) ∧ obj.isClass = true := by
  rcases mem_classesIn.mp h with ⟨enum, -, rfl, rfl⟩ | ⟨msg, -, -, rfl, rfl⟩
  · exact ⟨rfl, rfl⟩
  · exact ⟨rfl, rfl⟩

/-- The names of the classes of a scope. -/
theorem names_classesIn : (classesIn scope enums msgs).map Prod.fst
    = enums.map (·.name) ++ (msgs.filter (·.isUserFacing)).map (·.name) := by
  rw [classesIn, List.map_append, List.map_map, List.map_map]
  rfl

/-- Full names in one scope are equal for equal names only. -/
theorem full_injective (scope : String) : Function.Injective fun name => scope ++ "." ++ name := by
  intro name name' h
  have hlist := congrArg String.toList h
  simp only [String.toList_append] at hlist
  exact String.toList_inj.mp (List.append_cancel_left hlist)

/-- **Classes in front of and behind one of a scope** are other ones under other names. -/
theorem ne_of_split (hnames : ((classesIn scope enums msgs).map Prod.fst).Nodup)
    {before after : List (String × Obj)}
    (hsplit : classesIn scope enums msgs = before ++ (name, obj) :: after) :
    ∀ b ∈ before ++ after, b.1 ≠ name ∧ b.2 ≠ obj := by
  have hmem : (name, obj) ∈ classesIn scope enums msgs := by rw [hsplit]; simp
  have hnames' : name ∉ before.map Prod.fst ++ after.map Prod.fst := by
    rw [hsplit, List.map_append, List.map_cons] at hnames
    have hnotmem := (List.nodup_middle.mp hnames)
    exact (List.nodup_cons.mp hnotmem).1
  intro b hb
  have hbname : b.1 ≠ name := by
    rintro rfl
    exact hnames' (List.map_append ▸ List.mem_map_of_mem hb)
  refine ⟨hbname, fun heq => hbname ?_⟩
  have hbmem : (b.1, b.2) ∈ classesIn scope enums msgs := by
    rw [hsplit]
    rcases List.mem_append.mp hb with hb | hb
    · exact List.mem_append_left _ hb
    · exact List.mem_append_right _ (List.mem_cons_of_mem _ hb)
  have hfull := (protoName_of_mem hbmem).1
  rw [heq, (protoName_of_mem hmem).1, Option.some.injEq] at hfull
  exact (full_injective scope hfull).symm

end ClassesIn

/-! ## Class bodies -/

/-- The names a class body binds, in order. -/
def DescriptorProto.bodyNames (msg : DescriptorProto) : List String :=
  msg.enumType.map (·.name) ++ (msg.nestedType.filter (·.isUserFacing)).map (·.name)
    ++ msg.field.map (·.name)

/-- The names behind one of a list. -/
def namesBehind (names : List String) (name : String) : List String :=
  (names.dropWhile (· != name)).tail

/-- What stands behind the first occurrence of a name. -/
theorem namesBehind_append {before after : List String} {name : String} (h : name ∉ before) :
    namesBehind (before ++ name :: after) name = after := by
  rw [namesBehind, List.dropWhile_append_of_pos, List.dropWhile_cons_of_neg (by simp)]
  · rfl
  · intro name' hname'
    rw [bne_iff_ne]
    rintro rfl
    exact h hname'

/-- **A nested class is exposed** under a name of the finished class: the body rewrites its name to
that one, and no later name of the body. -/
def Exposed (outer : DescriptorProto) (inner name : String) : Prop :=
  mangle (some outer.name) inner = name ∧
    ∀ later ∈ namesBehind outer.bodyNames inner, mangle (some outer.name) later ≠ name

section Body

variable {files : List FileDescriptorProto} {file : FileDescriptorProto}
  {p : String × DescriptorProto}

/-- Every field of a valid message is rendered. -/
theorem exists_line (hvalid : ProtocValid files) (hfile : file ∈ files) (hp : p ∈ file.messages)
    {field : FieldDescriptorProto} (hfield : field ∈ p.2.field) :
    ∃ line, renderField (TypeIndex.build files) field = some line := by
  by_cases hown : OwnEntry p field
  · obtain ⟨_, _, _, _, _, _, _, hline⟩ := renderField_map hvalid hfile hp hfield hown
    exact ⟨_, hline⟩
  · have hentry := mapEntry_eq_none hvalid hfile hp hfield hown
    cases hrep : field.repeated with
    | true => exact ⟨_, renderField_list hentry hrep⟩
    | false => exact ⟨_, renderField_singular hrep⟩

/-- The fields of a class body bind their names, in order. -/
theorem fieldStmts_bindings {index : TypeIndex} {fields : List FieldDescriptorProto}
    (h : ∀ field ∈ fields, ∃ line, renderField index field = some line) :
    (fieldStmts index fields).map Stmt.binding = fields.map fun field => (field.name, .value) := by
  induction fields with
  | nil => rfl
  | cons field rest ih =>
      obtain ⟨line, hline⟩ := h field List.mem_cons_self
      rw [List.map_cons, ← ih fun f hf => h f (List.mem_cons_of_mem _ hf), fieldStmts,
        List.filterMap_cons, hline, ← renderField_name hline]
      rfl

/-- The classes of a class body bind their names, in order. -/
theorem classes_bindings (index : TypeIndex) (p : String × DescriptorProto) :
    (p.2.enumType.map (enumStmt p.1) ++ renderClasses index p.1 p.2.nestedType).map Stmt.binding
      = nestedClasses p := by
  rw [List.map_append, renderClasses_eq, List.map_map, List.map_map]
  refine congrArg₂ _ rfl (List.map_congr_left fun msg _ => ?_)
  rw [Function.comp_apply, DescriptorProto.renderClass_eq]
  rfl

/-- **What a class body binds**: its classes, then its fields. -/
theorem classBody_bindings (hvalid : ProtocValid files) (hfile : file ∈ files)
    (hp : p ∈ file.messages) : (classBody (TypeIndex.build files) p).map Stmt.binding
      = nestedClasses p ++ p.2.field.map fun field => (field.name, .value) := by
  rw [classBody, List.map_append, classes_bindings,
    fieldStmts_bindings fun field hfield => exists_line hvalid hfile hp hfield]

/-- The classes of a body have distinct names. -/
theorem nodup_nestedNames (hvalid : ProtocValid files) (hfile : file ∈ files)
    (hp : p ∈ file.messages) : ((nestedClasses p).map Prod.fst).Nodup := by
  have hmembers := (hvalid.message hfile hp).members
  rw [DescriptorProto.memberNames, List.append_assoc] at hmembers
  have hclasses := (List.nodup_append.mp hmembers).2.1
  refine List.Nodup.sublist ?_ (List.nodup_append_comm.mp hclasses)
  rw [nestedClasses, names_classesIn]
  refine List.Sublist.append ?_ (List.filter_sublist.map _)
  rw [← List.flatMap_singleton' (p.2.enumType.map (·.name)), List.flatMap_map]
  exact List.Sublist.flatMap_right _ fun enum _ => List.singleton_sublist.mpr List.mem_cons_self

end Body

namespace ModuleSet

variable {M : ModuleSet} {file : FileDescriptorProto} {p : String × DescriptorProto}

/-- What is bound to a class in a class body is one of its classes. -/
theorem mem_nestedClasses_of_lookup (hvalid : ProtocValid M.files) (hfile : file ∈ M.files)
    (hp : p ∈ file.messages) {name : String} {obj : Obj} (hclass : obj.isClass = true)
    (h : (M.classScope p).lookup name = some obj) : ∃ inner, (inner, obj) ∈ nestedClasses p := by
  have hmem := mem_of_lookup h
  rw [classScope, scopeAfter, Lib.Frame.locals_bindAll, List.append_nil, List.mem_reverse,
    show M.index = TypeIndex.build M.files from rfl, classBody_bindings hvalid hfile hp] at hmem
  obtain ⟨⟨inner, obj'⟩, hb, heq⟩ := List.mem_map.mp hmem
  cases heq
  rcases List.mem_append.mp hb with hb | hb
  · exact ⟨inner, hb⟩
  · obtain ⟨field, -, heq⟩ := List.mem_map.mp hb
    cases heq
    cases hclass

/-- **A nested class is found** under exactly the names it is exposed under. -/
theorem classScope_lookup_iff (hvalid : ProtocValid M.files) (hfile : file ∈ M.files)
    (hp : p ∈ file.messages) {inner name : String} {obj : Obj}
    (h : (inner, obj) ∈ nestedClasses p) :
    (M.classScope p).lookup name = some obj ↔ Exposed p.2 inner name := by
  obtain ⟨before, after, hsplit⟩ := List.append_of_mem h
  have hclass := (protoName_of_mem h).2
  have hother := ne_of_split (nodup_nestedNames hvalid hfile hp) hsplit
  let fields : List (String × Obj) := p.2.field.map fun field => (field.name, .value)
  have hfields : ∀ b ∈ fields, b.2 ≠ obj := by
    intro b hb
    obtain ⟨field, -, rfl⟩ := List.mem_map.mp hb
    rintro rfl
    cases hclass
  have hbindings : (classBody M.index p).map Stmt.binding
      = before ++ (inner, obj) :: (after ++ fields) := by
    rw [show M.index = TypeIndex.build M.files from rfl, classBody_bindings hvalid hfile hp, hsplit,
      List.append_assoc, List.cons_append]
  have hbehind : namesBehind p.2.bodyNames inner = (after ++ fields).map Prod.fst := by
    have hnames : p.2.bodyNames
        = before.map Prod.fst ++ inner :: (after ++ fields).map Prod.fst := by
      rw [DescriptorProto.bodyNames, ← @names_classesIn p.1, ← nestedClasses, hsplit,
        List.map_append, List.map_append, List.map_map, List.map_cons, List.append_assoc]
      rfl
    rw [hnames]
    refine namesBehind_append fun hmem => ?_
    obtain ⟨b, hb, hname⟩ := List.mem_map.mp hmem
    exact (hother b (List.mem_append_left _ hb)).1 hname
  rw [classScope, scopeAfter, hbindings, Lib.Frame.lookup_bindAll_iff (by simp)
    (fun b hb => (hother b (List.mem_append_left _ hb)).2)
    (fun b hb => (List.mem_append.mp hb).elim
      (fun hb => (hother b (List.mem_append_right _ hb)).2) (hfields b)), Exposed, hbehind]
  simp only [List.forall_mem_map]

end ModuleSet

/-! ## Walking through classes -/

/-- The segments of a full name behind those of a scope. -/
def pathFrom (scope full : String) : List String :=
  (segments full).drop (segments scope).length

/-- The path of a type of the scope. -/
theorem pathFrom_append (scope rest : String) :
    pathFrom scope (scope ++ "." ++ rest) = segments rest := by
  rw [pathFrom, segments_append, List.drop_left]

/-- **Every step to a type is exposed**: each nested class on the way is found in its container. -/
def Walkable (file : FileDescriptorProto) (rename : String → String) (full : String) : Prop :=
  ∀ outer ∈ file.allMessages, ∀ inner ∈ (nestedClasses outer).map Prod.fst,
    AtOrBelow (outer.1 ++ "." ++ inner) full → Exposed outer.2 inner (rename inner)

/-- **Induction along the nesting** of the messages of a forest. -/
theorem nesting_induction {keep : DescriptorProto → Bool} {scope : String}
    {msgs : List DescriptorProto} {P : String × DescriptorProto → Prop}
    (root : ∀ msg ∈ msgs, keep msg = true → P (scope ++ "." ++ msg.name, msg))
    (nested : ∀ p ∈ forest keep scope msgs, P p → ∀ child ∈ p.2.nestedType, keep child = true →
      P (p.1 ++ "." ++ child.name, child))
    {p : String × DescriptorProto} (hp : p ∈ forest keep scope msgs) : P p := by
  suffices h : p ∈ forest keep scope msgs ∧ P p from h.2
  refine @forest_induction keep (fun scope msgs p =>
    ∀ Q : String × DescriptorProto → Prop,
      (∀ msg ∈ msgs, keep msg = true → Q (scope ++ "." ++ msg.name, msg)) →
      (∀ p, Q p → ∀ child ∈ p.2.nestedType, keep child = true →
        Q (p.1 ++ "." ++ child.name, child)) → Q p) ?_ ?_ scope msgs p hp
    (fun p => p ∈ forest keep scope msgs ∧ P p) ?_ ?_
  · intro scope msgs msg hmsg hkeep Q hroot _
    exact hroot msg hmsg hkeep
  · intro scope msgs msg p hmsg hkeep _ ih Q hroot hnested
    exact ih Q (fun child hchild hkeep' =>
      hnested _ (hroot msg hmsg hkeep) child hchild hkeep') hnested
  · intro msg hmsg hkeep
    exact ⟨mem_forest.mpr ⟨msg, hmsg, hkeep, .inl rfl⟩, root msg hmsg hkeep⟩
  · intro p hp child hchild hkeep
    exact ⟨nested_mem_forest hp.1 hchild hkeep, nested p hp.1 hp.2 child hchild hkeep⟩

/-- The messages in the tree of a top-level message are messages of the file. -/
theorem FileDescriptorProto.mem_allMessages_of_tree {file : FileDescriptorProto}
    {root : DescriptorProto} (hroot : root ∈ file.messageType) {p : String × DescriptorProto}
    (hp : p ∈ root.tree DescriptorProto.isUserFacing file.scope) : p ∈ file.allMessages := by
  rw [FileDescriptorProto.allMessages, forest_eq]
  exact List.mem_flatMap.mpr ⟨root, hroot, hp⟩

/-- What has a user-facing message in its tree is user-facing. -/
theorem isUserFacing_of_tree {root : DescriptorProto} {scope : String} {p : String × DescriptorProto}
    (hp : p ∈ root.tree DescriptorProto.isUserFacing scope) : root.isUserFacing = true := by
  rw [DescriptorProto.tree_eq] at hp
  split at hp
  · assumption
  · cases hp

/-- **The classes within a top-level class**: itself, and those nested in it. -/
inductive Within (file : FileDescriptorProto) (top : String × Obj) : Obj → Prop
  | self : Within file top top.2
  | nested {p : String × DescriptorProto} {inner : String} {obj : Obj} (hp : p ∈ file.allMessages)
      (houter : Within file top (.messageClass p.1)) (h : (inner, obj) ∈ nestedClasses p) :
      Within file top obj

/-- Names at or below another are those whose segments start with those of the other. -/
theorem atOrBelow_iff {full name : String} : AtOrBelow full name ↔ segments full <+: segments name :=
  segments_prefix_iff.symm

/-- What a type of a scope is at or below: itself, or what its scope is at or below. -/
theorem atOrBelow_append {full outer name : String} (hdot : '.' ∉ name.toList) :
    AtOrBelow full (outer ++ "." ++ name) ↔ full = outer ++ "." ++ name ∨ AtOrBelow full outer := by
  rw [atOrBelow_iff, atOrBelow_iff, segments_append, segments_of_no_dot hdot,
    List.prefix_concat_iff, ← segments_of_no_dot hdot, ← segments_append]
  exact or_congr_left ⟨fun h => segments_injective h, fun h => h ▸ rfl⟩

section Walk

variable {files : List FileDescriptorProto} {file : FileDescriptorProto}
  {p : String × DescriptorProto} {inner : String} {obj : Obj} {rename : String → String}

/-- Class names of a message have no dots. -/
theorem no_dot_of_mem_nestedClasses (hvalid : ProtocValid files) (hfile : file ∈ files)
    (hp : p ∈ file.messages) (h : (inner, obj) ∈ nestedClasses p) : '.' ∉ inner.toList := by
  refine no_dot_of_isIdentifier ((hvalid.message hfile hp).memberNames inner ?_)
  simp only [DescriptorProto.memberNames, List.mem_append, List.mem_map, List.mem_flatMap]
  rcases mem_classesIn.mp h with ⟨enum, henum, rfl, -⟩ | ⟨msg, hmsg, -, rfl, -⟩
  · exact .inr ⟨enum, henum, List.mem_cons_self⟩
  · exact .inl (.inr ⟨msg, hmsg, rfl⟩)

/-- A nested class is nested in one message. -/
theorem outer_of_nestedClass (hvalid : ProtocValid files) (hfile : file ∈ files)
    {file' : FileDescriptorProto} (hfile' : file' ∈ files) (hp : p ∈ file.messages)
    {q : String × DescriptorProto} (hq : q ∈ file'.messages) {inner' : String}
    (h : (inner, obj) ∈ nestedClasses p) (h' : (inner', obj) ∈ nestedClasses q) :
    p = q ∧ inner = inner' := by
  have hfull : p.1 ++ "." ++ inner = q.1 ++ "." ++ inner' :=
    Option.some.inj ((protoName_of_mem h).1.symm.trans (protoName_of_mem h').1)
  obtain ⟨hname, hinner⟩ := eq_of_full_eq (no_dot_of_mem_nestedClasses hvalid hfile hp h)
    (no_dot_of_mem_nestedClasses hvalid hfile' hq h') hfull
  exact ⟨Prod.ext hname (hvalid.message_unique hfile hfile' hp hq hname), hinner⟩

/-- No step leads to a top-level type. -/
theorem walkable_top {name : String} (hdot : '.' ∉ name.toList) :
    Walkable file rename (file.scope ++ "." ++ name) := by
  intro outer houter inner _ hbelow
  obtain ⟨rest, hrest⟩ := below_scope (FileDescriptorProto.mem_messages houter).1
  have hlength := (atOrBelow_iff.mp hbelow).length_le
  have hne : 0 < (segments rest).length := List.length_pos_iff.mpr (segments_ne_nil rest)
  have hne' : 0 < (segments inner).length := List.length_pos_iff.mpr (segments_ne_nil inner)
  rw [hrest, segments_append, segments_append, segments_append, segments_of_no_dot hdot] at hlength
  simp only [List.length_append, List.length_singleton] at hlength
  omega

/-- **The last step to a nested class** is exposed beside those to its container. -/
theorem walkable_nested (hvalid : ProtocValid files) (hfile : file ∈ files)
    (hp : p ∈ file.allMessages) (h : (inner, obj) ∈ nestedClasses p) :
    Walkable file rename (p.1 ++ "." ++ inner) ↔
      Walkable file rename p.1 ∧ Exposed p.2 inner (rename inner) := by
  have hmem := (FileDescriptorProto.mem_messages hp).1
  have hdot := no_dot_of_mem_nestedClasses hvalid hfile hmem h
  constructor
  · intro hwalk
    refine ⟨fun outer houter name hname hbelow => hwalk outer houter name hname (hbelow.below inner),
      hwalk p hp inner (List.mem_map_of_mem (f := Prod.fst) h) (.inl rfl)⟩
  · rintro ⟨hwalk, hexposed⟩ outer houter name hname hbelow
    rcases (atOrBelow_append hdot).mp hbelow with heq | hbelow
    · obtain ⟨⟨name, obj'⟩, hchild, rfl⟩ := List.mem_map.mp hname
      have houter' := (FileDescriptorProto.mem_messages houter).1
      obtain ⟨hfull, rfl⟩ := eq_of_full_eq
        (no_dot_of_mem_nestedClasses hvalid hfile houter' hchild) hdot heq
      obtain rfl : outer = p :=
        Prod.ext hfull (hvalid.message_unique hfile hfile houter' hmem hfull)
      exact hexposed
    · exact hwalk outer houter name hname hbelow

/-- The messages in the tree of a top-level message are within its class. -/
theorem within_of_tree {root : DescriptorProto} (hroot : root ∈ file.messageType)
    {p : String × DescriptorProto}
    (hp : p ∈ root.tree DescriptorProto.isUserFacing file.scope) :
    Within file (root.name, .messageClass (file.scope ++ "." ++ root.name)) (.messageClass p.1) := by
  have htree : ∀ {q}, q ∈ forest DescriptorProto.isUserFacing file.scope [root] ↔
      q ∈ root.tree DescriptorProto.isUserFacing file.scope := by
    intro q
    rw [forest_eq, List.flatMap_singleton]
  refine nesting_induction (P := fun q => Within file _ (.messageClass q.1)) ?_ ?_ (htree.mpr hp)
  · intro msg hmsg _
    rw [List.mem_singleton.mp hmsg]
    exact .self
  · intro q hq hwithin child hchild hkeep
    exact .nested (FileDescriptorProto.mem_allMessages_of_tree hroot (htree.mp hq)) hwithin
      (mem_classesIn.mpr (.inr ⟨child, hchild, hkeep, rfl, rfl⟩))

/-- **An enum that a field refers to** stands at the top level of a file, or in one of its messages. -/
theorem enum_site (hvalid : ProtocValid files) {full : String}
    (h : full ∈ (enumsOf files).map Prod.fst) : ∃ other ∈ files,
      (∃ enum ∈ other.enumType, full = other.scope ++ "." ++ enum.name) ∨
      ∃ root ∈ other.messageType, ∃ p ∈ root.tree DescriptorProto.isUserFacing other.scope,
        ∃ enum ∈ p.2.enumType, full = p.1 ++ "." ++ enum.name := by
  obtain ⟨⟨_, enum⟩, he, rfl⟩ := List.mem_map.mp h
  obtain ⟨other, hother, he⟩ := List.mem_flatMap.mp he
  refine ⟨other, hother, ?_⟩
  rcases List.mem_append.mp he with he | he
  · obtain ⟨enum', henum, heq⟩ := List.mem_map.mp he
    cases heq
    exact .inl ⟨enum, henum, rfl⟩
  · obtain ⟨p, hp, he⟩ := List.mem_flatMap.mp he
    obtain ⟨enum', henum, heq⟩ := List.mem_map.mp he
    cases heq
    -- a map entry has no enums
    have hmap : p.2.mapEntry = false := by
      rw [Bool.eq_false_iff]
      intro hmap
      rw [((hvalid.message hother hp).entryLeaf hmap).2] at henum
      cases henum
    have huser := hvalid.mem_allMessages hother hp hmap
    rw [FileDescriptorProto.allMessages, forest_eq] at huser
    obtain ⟨root, hroot, hp⟩ := List.mem_flatMap.mp huser
    exact .inr ⟨root, hroot, p, hp, enum, henum, rfl⟩

end Walk

namespace ModuleSet

variable {M : ModuleSet} {file : FileDescriptorProto}

/-- **The attributes of objects are those of the finished classes**, under rewritten names, as far as
generated classes are among them. -/
def ReadsClasses (M : ModuleSet) {α : Type} (embed : Obj → α) (rename : String → String)
    (attr : α → String → Option α) : Prop :=
  ∀ found name obj, obj.isClass = true → (attr found name = some (embed obj) ↔
    ∃ p ∈ messagesOf M.files, found = embed (.messageClass p.1) ∧
      (M.classScope p).lookup (rename name) = some obj)

variable {α : Type} {embed : Obj → α} {rename : String → String} {look : String → Option α}
  {attr : α → String → Option α}

/-- **The path of a nested class** leads through its container. -/
theorem follow_nested_iff (hvalid : ProtocValid M.files) (hfile : file ∈ M.files)
    (hattr : M.ReadsClasses embed rename attr) {p : String × DescriptorProto}
    (hp : p ∈ file.allMessages) {inner : String} {obj : Obj} (h : (inner, obj) ∈ nestedClasses p) :
    follow look attr (pathFrom file.scope (p.1 ++ "." ++ inner)) = some (embed obj) ↔
      follow look attr (pathFrom file.scope p.1) = some (embed (.messageClass p.1)) ∧
        Exposed p.2 inner (rename inner) := by
  have hmem := (FileDescriptorProto.mem_messages hp).1
  have hdot := no_dot_of_mem_nestedClasses hvalid hfile hmem h
  obtain ⟨rest, hrest⟩ := below_scope hmem
  have hpath : pathFrom file.scope (p.1 ++ "." ++ inner) = pathFrom file.scope p.1 ++ [inner] := by
    rw [hrest, pathFrom_append, String.append_assoc, String.append_assoc, pathFrom_append,
      ← String.append_assoc, segments_append, segments_of_no_dot hdot]
  have hne : pathFrom file.scope p.1 ≠ [] := by
    rw [hrest, pathFrom_append]
    exact segments_ne_nil rest
  rw [hpath, follow_concat hne, Option.bind_eq_some_iff,
    ← M.classScope_lookup_iff hvalid hfile hmem h]
  have hclass := (protoName_of_mem h).2
  constructor
  · rintro ⟨found, hfound, hstep⟩
    obtain ⟨q, hq, rfl, hlookup⟩ := (hattr found inner obj hclass).mp hstep
    obtain ⟨other, hother, hq⟩ := List.mem_flatMap.mp hq
    obtain ⟨inner', hinner'⟩ := mem_nestedClasses_of_lookup hvalid hother hq hclass hlookup
    obtain ⟨rfl, -⟩ := outer_of_nestedClass hvalid hfile hother hmem hq h hinner'
    exact ⟨hfound, hlookup⟩
  · rintro ⟨hfound, hlookup⟩
    exact ⟨_, hfound, (hattr _ inner obj hclass).mpr
      ⟨p, List.mem_flatMap.mpr ⟨file, hfile, hmem⟩, rfl, hlookup⟩⟩

/-- **The path of a type leads to its class** exactly when its first segment leads to the container at
the top level and every further step is exposed. -/
theorem follow_iff_walkable (hvalid : ProtocValid M.files) (hfile : file ∈ M.files)
    (hattr : M.ReadsClasses embed rename attr) {top : String × Obj} (htop : top ∈ file.topClasses)
    (hdot : '.' ∉ top.1.toList) {obj : Obj} (hobj : Within file top obj) {full : String}
    (hfull : obj.protoName = some full) :
    follow look attr (pathFrom file.scope full) = some (embed obj) ↔
      look top.1 = some (embed top.2) ∧ Walkable file rename full := by
  induction hobj generalizing full with
  | self =>
      rw [(protoName_of_mem htop).1, Option.some.injEq] at hfull
      subst hfull
      rw [pathFrom_append, segments_of_no_dot hdot, follow_singleton,
        and_iff_left (walkable_top hdot)]
  | @nested p inner obj hp houter h ih =>
      rw [(protoName_of_mem h).1, Option.some.injEq] at hfull
      subst hfull
      rw [follow_nested_iff hvalid hfile hattr hp h, ih rfl, walkable_nested hvalid hfile hp h,
        and_assoc]

end ModuleSet

end FastProto
