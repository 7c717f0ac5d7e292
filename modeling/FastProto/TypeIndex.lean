import FastProto.DescriptorProto
import FastProto.Lib.Assoc

/-! # The type index of the code generator (`plugin/_index.py`)

The plugin looks every type up by its full name in an index over all files of a request. A name is
`.pkg.Outer.Inner`, the package first; the index keeps the defining file and the path without the
package, which is how generated code refers to the type. -/

namespace FastProto

open Lib

/-- A `FileDescriptorProto`. -/
structure FileDescriptorProto where
  name : String
  package : String := ""
  /-- The `syntax`, empty for proto2. -/
  syntaxName : String := "proto3"
  messageType : List DescriptorProto := []
  enumType : List EnumDescriptorProto := []

/-- Where a named type is defined. -/
structure TypeInfo where
  file : String
  /-- The dotted path within the defining module, the package stripped. -/
  qualified : String
  /-- None for enums. -/
  message : Option DescriptorProto

/-- A class of the standard library that stands for a well-known type. -/
inductive NativeType where
  | datetime
  | timedelta
  deriving DecidableEq, Repr

/-- The name of the class in generated code. -/
def NativeType.name : NativeType → String
  | .datetime => "datetime"
  | .timedelta => "timedelta"

/-- `NATIVE_WKT`: the well-known types surfaced as native Python objects. -/
def nativeWkt (typeName : String) : Option NativeType :=
  [(timestampFullName, NativeType.datetime), (durationFullName, NativeType.timedelta)].lookup
    typeName

/-! ## The index -/

/-- `full[strip:]`. -/
def stripped (strip : Nat) (full : String) : String := String.ofList (full.toList.drop strip)

/-- The scope of the top-level types of a file: `.pkg`, or nothing without a package. -/
def FileDescriptorProto.scope (file : FileDescriptorProto) : String :=
  if file.package = "" then "" else "." ++ file.package

/-- The assignments `d[name] = info` that fill an index, in order. -/
abbrev TypeIndex := List (String × TypeInfo)

mutual

/-- The assignments of `_walk` for one message. -/
def DescriptorProto.walk (scope file : String) (strip : Nat) : DescriptorProto → TypeIndex
  | ⟨name, field, nestedType, enumType, options, oneofDecl, others⟩ =>
      let full := scope ++ "." ++ name
      (full, ⟨file, stripped strip full,
        some ⟨name, field, nestedType, enumType, options, oneofDecl, others⟩⟩)
        :: enumType.map (fun enum =>
          (full ++ "." ++ enum.name, ⟨file, stripped strip (full ++ "." ++ enum.name), none⟩))
        ++ walkAll full file strip nestedType

/-- `_walk`. -/
def walkAll (scope file : String) (strip : Nat) : List DescriptorProto → TypeIndex
  | [] => []
  | msg :: rest => msg.walk scope file strip ++ walkAll scope file strip rest

end

/-- The assignments for one file. -/
def FileDescriptorProto.index (file : FileDescriptorProto) : TypeIndex :=
  file.enumType.map (fun enum => (file.scope ++ "." ++ enum.name, ⟨file.name, enum.name, none⟩))
    ++ walkAll file.scope file.name (file.scope.length + 1) file.messageType

namespace TypeIndex

/-- The index over all files. -/
def build (files : List FileDescriptorProto) : TypeIndex := files.flatMap (·.index)

variable (index : TypeIndex)

/-- The definition site of a type: what was assigned last. -/
def get (typeName : String) : Option TypeInfo := index.reverse.lookup typeName

/-- The path of a type within its module. -/
def qualified (typeName : String) : String :=
  match index.get typeName with
  | some info => info.qualified
  | none => shortName typeName

/-- The synthetic entry message of a field that is a map. -/
def mapEntry (field : FieldDescriptorProto) : Option DescriptorProto :=
  if field.repeated then
    match field.type with
    | .message typeName =>
        match index.get typeName with
        | some ⟨_, _, some entry⟩ => if entry.mapEntry then some entry else none
        | _ => none
    | _ => none
  else none

end TypeIndex

/-- Whether a field is nullable in Python: a proto3 `optional`, or a member of a real oneof. -/
def FieldDescriptorProto.hasPresence (field : FieldDescriptorProto) : Bool :=
  field.proto3Optional || (field.oneofIndex.isSome && !field.proto3Optional)

/-- Whether a type is named by a generated class. -/
def ProtoType.isNamed (type : ProtoType) : Bool :=
  match type.typeName with
  | some typeName => (nativeWkt typeName).isNone
  | none => false

/-! ## The messages of a file -/

mutual

/-- A message and the messages nested in it with their full names, in the order of the walk. What is
below a message that is not kept is skipped with it. -/
def DescriptorProto.tree (keep : DescriptorProto → Bool) (scope : String) :
    DescriptorProto → List (String × DescriptorProto)
  | ⟨name, field, nestedType, enumType, options, oneofDecl, others⟩ =>
      if keep ⟨name, field, nestedType, enumType, options, oneofDecl, others⟩ then
        (scope ++ "." ++ name, ⟨name, field, nestedType, enumType, options, oneofDecl, others⟩)
          :: forest keep (scope ++ "." ++ name) nestedType
      else []

/-- The kept messages at or below the given ones. -/
def forest (keep : DescriptorProto → Bool) (scope : String) :
    List DescriptorProto → List (String × DescriptorProto)
  | [] => []
  | msg :: rest => msg.tree keep scope ++ forest keep scope rest

end

/-- Whether a message is user-facing: the entries of maps are synthetic. -/
def DescriptorProto.isUserFacing (msg : DescriptorProto) : Bool := !msg.mapEntry

namespace FileDescriptorProto

variable (file : FileDescriptorProto)

/-- The messages of a file with their full names, map entries included. -/
def messages : List (String × DescriptorProto) :=
  forest (fun _ => true) file.scope file.messageType

/-- `all_messages(file)`, with full names. -/
def allMessages : List (String × DescriptorProto) :=
  forest DescriptorProto.isUserFacing file.scope file.messageType

end FileDescriptorProto

/-! ## Walking the tree of messages -/

section Forest

variable {keep : DescriptorProto → Bool} {scope : String}

/-- The tree of a message, its root and what is below. -/
theorem DescriptorProto.tree_eq (msg : DescriptorProto) : msg.tree keep scope
    = if keep msg then
        (scope ++ "." ++ msg.name, msg) :: forest keep (scope ++ "." ++ msg.name) msg.nestedType
      else [] := by
  obtain ⟨name, field, nestedType, enumType, options, oneofDecl, others⟩ := msg
  rw [DescriptorProto.tree]

/-- The messages below a list are the trees of its members. -/
theorem forest_eq (msgs : List DescriptorProto) :
    forest keep scope msgs = msgs.flatMap (·.tree keep scope) := by
  induction msgs with
  | nil => rfl
  | cons msg rest ih => rw [forest, ih, List.flatMap_cons]

/-- A message of a forest is a kept root, or below one. -/
theorem mem_forest {msgs : List DescriptorProto} {p : String × DescriptorProto} :
    p ∈ forest keep scope msgs ↔ ∃ msg ∈ msgs, keep msg = true ∧
      (p = (scope ++ "." ++ msg.name, msg) ∨
        p ∈ forest keep (scope ++ "." ++ msg.name) msg.nestedType) := by
  rw [forest_eq, List.mem_flatMap]
  refine exists_congr fun msg => and_congr_right fun _ => ?_
  rw [DescriptorProto.tree_eq]
  split
  · rename_i hkeep
    simp [hkeep]
  · rename_i hkeep
    simp [hkeep]

/-- The nested types of a message of a list are smaller than the list. -/
theorem sizeOf_nestedType_lt {msgs : List DescriptorProto} {msg : DescriptorProto}
    (h : msg ∈ msgs) : sizeOf msg.nestedType < sizeOf msgs := by
  have hmsg := List.sizeOf_lt_of_mem h
  obtain ⟨name, field, nestedType, enumType, options, oneofDecl, others⟩ := msg
  rw [DescriptorProto.mk.sizeOf_spec] at hmsg
  show sizeOf nestedType < sizeOf msgs
  omega

/-- **Induction over a forest**: what holds of its roots, and of a message whenever it holds of it
in the forest below a root, holds of every message. -/
theorem forest_induction
    {motive : String → List DescriptorProto → String × DescriptorProto → Prop}
    (here : ∀ scope msgs msg, msg ∈ msgs → keep msg = true →
      motive scope msgs (scope ++ "." ++ msg.name, msg))
    (below : ∀ scope msgs msg p, msg ∈ msgs → keep msg = true →
      p ∈ forest keep (scope ++ "." ++ msg.name) msg.nestedType →
      motive (scope ++ "." ++ msg.name) msg.nestedType p → motive scope msgs p)
    (scope : String) (msgs : List DescriptorProto) (p : String × DescriptorProto)
    (hp : p ∈ forest keep scope msgs) : motive scope msgs p := by
  obtain ⟨root, hroot, hkeep, hp⟩ := mem_forest.mp hp
  rcases hp with rfl | hp
  · exact here scope msgs root hroot hkeep
  · exact below scope msgs root p hroot hkeep hp (forest_induction here below _ _ p hp)
termination_by sizeOf msgs
decreasing_by exact sizeOf_nestedType_lt hroot

/-- Every message of a forest is kept. -/
theorem keep_of_mem_forest {msgs : List DescriptorProto} {p : String × DescriptorProto}
    (hp : p ∈ forest keep scope msgs) : keep p.2 = true :=
  forest_induction (motive := fun _ _ p => keep p.2 = true) (fun _ _ _ _ hkeep => hkeep)
    (fun _ _ _ _ _ _ _ ih => ih) scope msgs p hp

/-- A message kept with fewer kept is kept with more. -/
theorem forest_mono {keep' : DescriptorProto → Bool} (hmono : ∀ msg, keep msg = true →
    keep' msg = true) {msgs : List DescriptorProto} {p : String × DescriptorProto}
    (hp : p ∈ forest keep scope msgs) : p ∈ forest keep' scope msgs :=
  forest_induction (motive := fun scope msgs p => p ∈ forest keep' scope msgs)
    (fun _ _ msg hmsg hkeep => mem_forest.mpr ⟨msg, hmsg, hmono msg hkeep, .inl rfl⟩)
    (fun _ _ msg _ hmsg hkeep _ ih => mem_forest.mpr ⟨msg, hmsg, hmono msg hkeep, .inr ih⟩)
    scope msgs p hp

/-- Keeping more adds messages and moves none. -/
theorem forest_sublist {keep' : DescriptorProto → Bool} (hmono : ∀ msg, keep msg = true →
    keep' msg = true) (scope : String) :
    ∀ msgs : List DescriptorProto, (forest keep scope msgs).Sublist (forest keep' scope msgs)
  | [] => List.Sublist.refl _
  | msg :: rest => by
      have htree : (msg.tree keep scope).Sublist (msg.tree keep' scope) := by
        rw [DescriptorProto.tree_eq, DescriptorProto.tree_eq]
        split
        · rename_i hkeep
          rw [if_pos (hmono msg hkeep)]
          exact (forest_sublist hmono _ msg.nestedType).cons_cons _
        · exact List.nil_sublist _
      rw [forest, forest]
      exact htree.append (forest_sublist hmono scope rest)
termination_by msgs => sizeOf msgs
decreasing_by
  · exact sizeOf_nestedType_lt List.mem_cons_self
  · simp

/-- The same for the tree of one message. -/
theorem tree_sublist {keep' : DescriptorProto → Bool} (hmono : ∀ msg, keep msg = true →
    keep' msg = true) (scope : String) (msg : DescriptorProto) :
    (msg.tree keep scope).Sublist (msg.tree keep' scope) := by
  have h := forest_sublist hmono scope [msg]
  rwa [forest_eq, forest_eq, List.flatMap_singleton, List.flatMap_singleton] at h

/-- **The kept nested types of a message stand in the forest under its full name.** -/
theorem nested_mem_forest {msgs : List DescriptorProto} {p : String × DescriptorProto}
    (hp : p ∈ forest keep scope msgs) {child : DescriptorProto} (hchild : child ∈ p.2.nestedType)
    (hkeep : keep child = true) : (p.1 ++ "." ++ child.name, child) ∈ forest keep scope msgs := by
  revert hchild
  refine forest_induction (motive := fun scope msgs p => child ∈ p.2.nestedType →
    (p.1 ++ "." ++ child.name, child) ∈ forest keep scope msgs) ?_ ?_ scope msgs p hp
  · intro scope msgs msg hmsg hroot hchild
    exact mem_forest.mpr
      ⟨msg, hmsg, hroot, .inr (mem_forest.mpr ⟨child, hchild, hkeep, .inl rfl⟩)⟩
  · intro scope msgs msg p hmsg hroot _ ih hchild
    exact mem_forest.mpr ⟨msg, hmsg, hroot, .inr (ih hchild)⟩

/-- A full name is the name of the message within a scope at or below that of the forest. -/
theorem forest_name {msgs : List DescriptorProto} {p : String × DescriptorProto}
    (hp : p ∈ forest keep scope msgs) : ∃ outer, p.1 = outer ++ "." ++ p.2.name :=
  forest_induction (motive := fun _ _ p => ∃ outer, p.1 = outer ++ "." ++ p.2.name)
    (fun scope _ _ _ _ => ⟨scope, rfl⟩) (fun _ _ _ _ _ _ _ ih => ih) scope msgs p hp

end Forest

/-- What the index gets of one message: the message and its enums. -/
def walkEntries (file : String) (strip : Nat) (p : String × DescriptorProto) : TypeIndex :=
  (p.1, ⟨file, stripped strip p.1, some p.2⟩)
    :: p.2.enumType.map fun enum =>
      (p.1 ++ "." ++ enum.name, ⟨file, stripped strip (p.1 ++ "." ++ enum.name), none⟩)

mutual

/-- The walk of one message visits it and all messages below. -/
theorem DescriptorProto.walk_eq (scope file : String) (strip : Nat) :
    ∀ msg : DescriptorProto, msg.walk scope file strip
      = (msg.tree (fun _ => true) scope).flatMap (walkEntries file strip)
  | ⟨name, field, nestedType, enumType, options, oneofDecl, others⟩ => by
      rw [DescriptorProto.walk, DescriptorProto.tree, if_pos rfl, List.flatMap_cons,
        walkAll_eq (scope ++ "." ++ name) file strip nestedType]
      rfl

/-- **The walk visits every message once**, and indexes it and its enums. -/
theorem walkAll_eq (scope file : String) (strip : Nat) :
    ∀ msgs : List DescriptorProto, walkAll scope file strip msgs
      = (forest (fun _ => true) scope msgs).flatMap (walkEntries file strip)
  | [] => rfl
  | msg :: rest => by
      rw [walkAll, forest, List.flatMap_append, msg.walk_eq scope file strip,
        walkAll_eq scope file strip rest]

end

/-- The user-facing messages are among all messages, and are no map entries. -/
theorem FileDescriptorProto.mem_messages {file : FileDescriptorProto}
    {p : String × DescriptorProto} (hp : p ∈ file.allMessages) :
    p ∈ file.messages ∧ p.2.mapEntry = false := by
  have hkeep := keep_of_mem_forest hp
  rw [DescriptorProto.isUserFacing, Bool.not_eq_true'] at hkeep
  exact ⟨forest_mono (fun _ _ => rfl) hp, hkeep⟩

/-- The nested types of a message are messages of the file. -/
theorem FileDescriptorProto.nested_mem {file : FileDescriptorProto}
    {p : String × DescriptorProto} (hp : p ∈ file.messages) {child : DescriptorProto}
    (hchild : child ∈ p.2.nestedType) : (p.1 ++ "." ++ child.name, child) ∈ file.messages :=
  nested_mem_forest hp hchild rfl

/-! ## Lookups -/

namespace TypeIndex

variable {index : TypeIndex}

/-- What is found was assigned. -/
theorem mem_of_get {typeName : String} {info : TypeInfo} (h : index.get typeName = some info) :
    (typeName, info) ∈ index :=
  List.mem_reverse.mp (mem_of_lookup h)

/-- With distinct names, every assignment is found. -/
theorem get_of_mem (hnodup : (index.map Prod.fst).Nodup) {typeName : String} {info : TypeInfo}
    (h : (typeName, info) ∈ index) : index.get typeName = some info :=
  lookup_of_mem (by rwa [List.map_reverse, List.nodup_reverse]) (List.mem_reverse.mpr h)

/-- **A field is a map for the index** when it is repeated and its type is found to be an entry. -/
theorem mapEntry_eq_some_iff {field : FieldDescriptorProto} {entry : DescriptorProto} :
    index.mapEntry field = some entry ↔ field.repeated = true ∧ entry.mapEntry = true ∧
      ∃ typeName, field.type = .message typeName ∧
        ∃ info, index.get typeName = some info ∧ info.message = some entry := by
  unfold mapEntry
  constructor
  · intro h
    split at h
    · rename_i hrep
      split at h
      · rename_i typeName htype
        split at h
        · rename_i entry' hget
          split at h
          · rename_i hmap
            cases h
            exact ⟨hrep, hmap, typeName, htype, _, hget, rfl⟩
          · cases h
        · cases h
      · cases h
    · cases h
  · rintro ⟨hrep, hmap, typeName, htype, ⟨_, _, _⟩, hget, rfl⟩
    rw [if_pos hrep, htype]
    dsimp only
    rw [hget]
    dsimp only
    rw [if_pos hmap]

/-- Every message of a file is assigned under its full name. -/
theorem message_mem_build {files : List FileDescriptorProto} {file : FileDescriptorProto}
    (hfile : file ∈ files) {p : String × DescriptorProto} (hp : p ∈ file.messages) :
    (p.1, ⟨file.name, stripped (file.scope.length + 1) p.1, some p.2⟩) ∈ build files := by
  refine List.mem_flatMap.mpr ⟨file, hfile, List.mem_append_right _ ?_⟩
  rw [walkAll_eq]
  exact List.mem_flatMap.mpr ⟨p, hp, List.mem_cons_self⟩

/-- The full names of the messages of a file are among those of the index, in order. -/
theorem names_sublist_build {files : List FileDescriptorProto} {file : FileDescriptorProto}
    (hfile : file ∈ files) :
    (file.messages.map Prod.fst).Sublist ((build files).map Prod.fst) := by
  have hwalk : ∀ ps : List (String × DescriptorProto), (ps.map Prod.fst).Sublist
      ((ps.flatMap (walkEntries file.name (file.scope.length + 1))).map Prod.fst) := by
    intro ps
    induction ps with
    | nil => exact List.Sublist.refl _
    | cons p ps ih =>
        rw [List.map_cons, List.flatMap_cons, List.map_append]
        exact (ih.trans (List.sublist_append_right _ _)).cons_cons p.1
  have hindex : file.index.Sublist (build files) := by
    obtain ⟨before, after, rfl⟩ := List.append_of_mem hfile
    rw [build, List.flatMap_append, List.flatMap_cons]
    exact (List.sublist_append_left _ _).trans (List.sublist_append_right _ _)
  refine ((hwalk file.messages).trans ?_).trans (hindex.map Prod.fst)
  rw [FileDescriptorProto.index, walkAll_eq, List.map_append]
  exact List.sublist_append_right _ _

/-- A message found in the index is a message of a file, under its full name. -/
theorem message_of_mem_build {files : List FileDescriptorProto} {typeName : String}
    {info : TypeInfo} {msg : DescriptorProto} (h : (typeName, info) ∈ build files)
    (hmsg : info.message = some msg) :
    ∃ file ∈ files, (typeName, msg) ∈ file.messages ∧ info.file = file.name ∧
      info.qualified = stripped (file.scope.length + 1) typeName := by
  obtain ⟨file, hfile, h⟩ := List.mem_flatMap.mp h
  rcases List.mem_append.mp h with h | h
  · obtain ⟨enum, -, heq⟩ := List.mem_map.mp h
    cases heq
    cases hmsg
  · rw [walkAll_eq] at h
    obtain ⟨p, hp, h⟩ := List.mem_flatMap.mp h
    rcases List.mem_cons.mp h with heq | h
    · cases heq
      cases hmsg
      exact ⟨file, hfile, hp, rfl, rfl⟩
    · obtain ⟨enum, -, heq⟩ := List.mem_map.mp h
      cases heq
      cases hmsg

end TypeIndex

end FastProto
