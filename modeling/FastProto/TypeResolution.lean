import FastProto.GeneratedReads
import FastProto.Link

/-! # Resolving references to generated classes (`_resolve`)

A descriptor refers to a type by its full name, and the namespace of a module has no package. `_resolve`
tries every suffix of the name and takes the first chain of attributes that exists. `resolves_iff` says
for which references that chain ends in the class generated for the type. -/

namespace FastProto

open Lib

/-! ## Namespaces and attributes -/

/-- What names of a module lead to. -/
inductive PyObject where
  /-- What a statement of generated code binds. -/
  | obj (obj : Obj)
  /-- An attribute that is no generated class: a slot, an enum member, a method, a part of a
  library. -/
  | attribute (owner : PyObject) (name : String)
  /-- A name that Python binds in every module: `__name__`. -/
  | moduleName (name : String)
  deriving DecidableEq, Repr

/-- What Python and the libraries add to what generated code binds. -/
structure PythonNames where
  /-- The names of every module that are bound to an object other than `None`. -/
  moduleNames : List String
  /-- The attributes that an object has besides. -/
  has : PyObject → String → Bool

/-- The number of segments of the package of a file. -/
def FileDescriptorProto.packageDepth (file : FileDescriptorProto) : Nat :=
  (segments file.scope).length - 1

/-- The path of a type in its module is behind the package in its full name. -/
theorem pathFrom_scope (file : FileDescriptorProto) (name : String) :
    pathFrom file.scope ("." ++ name) = (segments name).drop file.packageDepth := by
  have hdot : segments ("." ++ name) = "" :: segments name := by
    have h := segments_append "" name
    rwa [String.empty_append, @segments_of_no_dot "" (by decide)] at h
  obtain ⟨n, hn⟩ := Nat.exists_eq_succ_of_ne_zero
    (List.length_pos_iff.mpr (segments_ne_nil file.scope)).ne'
  rw [pathFrom, FileDescriptorProto.packageDepth, hdot, hn]
  rfl

/-- Dropping an index past the declared groups changes no number, name or type. -/
theorem clampOneof_keeps (oneofs : List String) (compiled : FieldDescriptor) :
    (clampOneof oneofs compiled).number = compiled.number ∧
      (clampOneof oneofs compiled).name = compiled.name ∧
      (clampOneof oneofs compiled).typeName = compiled.typeName := by
  unfold clampOneof
  split
  · split <;> exact ⟨rfl, rfl, rfl⟩
  · exact ⟨rfl, rfl, rfl⟩

namespace ModuleSet

variable (M : ModuleSet) (py : PythonNames)

/-- What the body of a class binds: of a message its nested classes and fields, of an enum its
members. -/
def bodyAttr : PyObject → String → Option Obj
  | .obj (.messageClass full), name =>
      ((messagesOf M.files).lookup full).bind fun msg => (M.classScope (full, msg)).lookup name
  | .obj (.enumClass full), name =>
      ((enumsOf M.files).lookup full).bind fun enum =>
        (enum.value.map fun value => (mangle (some enum.name) value.name, Obj.value)).lookup name
  | _, _ => none

/-- `getattr`: what the body of a class binds, else what Python adds. -/
def getattr (found : PyObject) (name : String) : Option PyObject :=
  match M.bodyAttr found name with
  | some obj => some (if obj.isClass then .obj obj else .attribute found name)
  | none => if py.has found name then some (.attribute found name) else none

/-- `vars(sys.modules[cls.__module__])`, once the module is finished. -/
def moduleVars (file : FileDescriptorProto) : List (String × PyObject) :=
  ((M.moduleScope file).locals.map fun b => (b.1, .obj b.2))
    ++ py.moduleNames.map fun name => (name, .moduleName name)

/-- The class generated for a type. -/
def classFor (full : String) : Obj :=
  if full ∈ (enumsOf M.files).map Prod.fst then .enumClass full else .messageClass full

variable {M py} {file other : FileDescriptorProto} {obj : Obj} {name found : String}

/-- A chain follows a path. -/
theorem chainAt_eq {α : Type} (attr : α → String → Option α) (vars : List (String × α))
    (path : List String) :
    chainAt attr vars path = follow (fun name => vars.lookup name) attr path := by
  cases path <;> rfl

/-- The attributes that are generated classes are those the bodies of classes bind. -/
theorem readsClasses_getattr (hvalid : ProtocValid M.files) :
    M.ReadsClasses PyObject.obj id (M.getattr py) := by
  intro found name obj hclass
  constructor
  · intro h
    unfold getattr at h
    split at h
    · rename_i obj' hbody
      split at h
      · cases h
        unfold bodyAttr at hbody
        split at hbody
        · rename_i full
          obtain ⟨msg, hmsg, hlookup⟩ := Option.bind_eq_some_iff.mp hbody
          exact ⟨(full, msg), mem_of_lookup hmsg, rfl, hlookup⟩
        · -- the members of an enum are no classes
          obtain ⟨enum, -, hlookup⟩ := Option.bind_eq_some_iff.mp hbody
          obtain ⟨value, -, heq⟩ := List.mem_map.mp (mem_of_lookup hlookup)
          cases heq
          cases hclass
        · cases hbody
      · cases h
    · split at h <;> cases h
  · rintro ⟨p, hp, rfl, hlookup⟩
    rw [id_eq] at hlookup
    rw [getattr, bodyAttr, hvalid.lookup_messagesOf hp, Option.bind_some, hlookup]
    dsimp only
    rw [if_pos hclass]

/-- What the namespace of a module has of generated objects is what its statements bound. -/
theorem lookup_moduleVars : (M.moduleVars py file).lookup name = some (.obj obj) ↔
    (M.moduleScope file).locals.lookup name = some obj := by
  rw [moduleVars, List.lookup_append, lookup_map_snd PyObject.obj]
  cases hfound : (M.moduleScope file).locals.lookup name with
  | some obj' => simp
  | none =>
      rw [Option.map_none, Option.none_or]
      refine iff_of_false (fun h => ?_) nofun
      obtain ⟨name', -, heq⟩ := List.mem_map.mp (mem_of_lookup h)
      cases heq

/-! ## Classes of the namespace -/

/-- A top-level class is generated for a type that the index has. -/
theorem mem_index_of_topClass (h : (name, obj) ∈ other.topClasses) :
    other.scope ++ "." ++ name ∈ other.index.map Prod.fst := by
  refine (names_sublist_index other).subset ?_
  rcases mem_classesIn.mp h with ⟨enum, henum, rfl, -⟩ | ⟨msg, hmsg, -, rfl, -⟩
  · exact List.mem_append_left _ (List.mem_map_of_mem henum)
  · exact List.mem_append_right _ (List.mem_map_of_mem (other.root_mem hmsg))

/-- What a statement of a module binds to a class is a top-level class. -/
theorem mem_topClasses_of_block {s : Stmt} (hs : s ∈ file.blocks M.index)
    (hclass : s.binding.2.isClass = true) : s.binding ∈ file.topClasses := by
  rw [← @classes_of_blocks M.index]
  exact List.mem_filter.mpr ⟨List.mem_map_of_mem hs, hclass⟩

/-- **A class that a module has under a name** is a top-level class of that name, its own or one that
it imports. -/
theorem topClass_of_lookup (hvalid : ProtocValid M.files) (hfile : file ∈ M.files)
    (hclass : obj.isClass = true) (h : (M.moduleScope file).locals.lookup found = some obj) :
    ∃ other ∈ M.files, (found, obj) ∈ other.topClasses ∧
      (other = file ∨ External M.files file ⟨other.name, found⟩) := by
  have hmem := mem_of_lookup h
  rw [moduleScope, scopeAfter, Lib.Frame.locals_bindAll, header_cls] at hmem
  simp only [mangle_none, Prod.mk.eta, List.map_id'] at hmem
  rcases List.mem_append.mp hmem with hmem | hmem
  · obtain ⟨s, hs, heq⟩ := List.mem_map.mp (List.mem_reverse.mp hmem)
    refine ⟨file, hfile, ?_, .inl rfl⟩
    rw [← heq]
    exact mem_topClasses_of_block hs (by rw [heq]; exact hclass)
  · rcases mem_header.mp hmem with ⟨runtime, -, heq⟩ | himport
    · cases heq
      cases hclass
    · obtain ⟨other, hother, hneeded, hexported⟩ := exists_of_mem_imports hvalid hfile himport
      refine ⟨other, hother, ?_, .inr hneeded⟩
      have hexport := mem_of_lookup hexported
      rw [scopeAfter, Lib.Frame.locals_bindAll, List.append_nil, List.mem_reverse, List.map_map]
        at hexport
      obtain ⟨s, hs, heq⟩ := List.mem_map.mp hexport
      have hbinding : s.binding = (found, obj) := heq
      rw [← hbinding]
      exact mem_topClasses_of_block hs (by rw [hbinding]; exact hclass)

/-- A nested class is generated for a type that the index has. -/
theorem mem_index_of_nestedClass {p : String × DescriptorProto} (hp : p ∈ file.messages)
    (h : (name, obj) ∈ nestedClasses p) : p.1 ++ "." ++ name ∈ file.index.map Prod.fst := by
  rcases mem_classesIn.mp h with ⟨enum, henum, rfl, -⟩ | ⟨msg, hmsg, -, rfl, -⟩
  · rw [FileDescriptorProto.index, List.map_append, walkAll_eq]
    have hentry : (p.1 ++ "." ++ enum.name,
        (⟨file.name, stripped (file.scope.length + 1) (p.1 ++ "." ++ enum.name), none⟩ : TypeInfo))
        ∈ walkEntries file.name (file.scope.length + 1) p :=
      List.mem_cons_of_mem _ (List.mem_map_of_mem henum)
    exact List.mem_append_right _
      (List.mem_map_of_mem (f := Prod.fst) (List.mem_flatMap.mpr ⟨p, hp, hentry⟩))
  · exact (names_sublist_index file).subset
      (List.mem_append_right _ (List.mem_map_of_mem (file.nested_mem hp hmsg)))

/-- A generated class at some depth of its module: its type has that many segments behind the
scope. -/
def AtDepth (M : ModuleSet) (obj : Obj) (depth : Nat) : Prop :=
  ∃ other ∈ M.files, ∃ full ∈ other.index.map Prod.fst,
    obj.protoName = some full ∧ (pathFrom other.scope full).length = depth

/-- The depth of a class is that of its type. -/
theorem AtDepth.unique (hvalid : ProtocValid M.files) {depth depth' : Nat}
    (h : M.AtDepth obj depth) (h' : M.AtDepth obj depth') : depth = depth' := by
  obtain ⟨other, hother, full, hfull, hname, rfl⟩ := h
  obtain ⟨other', hother', full', hfull', hname', rfl⟩ := h'
  rw [hname, Option.some.injEq] at hname'
  subst hname'
  rw [file_unique hvalid hother hother' hfull hfull']

/-- A top-level class is at depth one. -/
theorem atDepth_topClass (hvalid : ProtocValid M.files) (hother : other ∈ M.files)
    (h : (name, obj) ∈ other.topClasses) : M.AtDepth obj 1 := by
  have hdot : '.' ∉ name.toList := by
    rcases mem_classesIn.mp h with ⟨enum, henum, rfl, -⟩ | ⟨msg, hmsg, -, rfl, -⟩
    · exact no_dot_of_isIdentifier (hvalid.wellNamed.enumNames other hother enum henum)
    · exact no_dot_of_isIdentifier (hvalid.wellNamed.messageNames other hother msg hmsg)
  refine ⟨other, hother, _, mem_index_of_topClass h, (protoName_of_mem h).1, ?_⟩
  rw [pathFrom_append, segments_of_no_dot hdot, List.length_singleton]

/-- A nested class is one deeper than the class around it. -/
theorem atDepth_nestedClass (hvalid : ProtocValid M.files) (hfile : file ∈ M.files)
    {p : String × DescriptorProto} (hp : p ∈ file.messages) (h : (name, obj) ∈ nestedClasses p)
    {depth : Nat} (houter : M.AtDepth (.messageClass p.1) depth) : M.AtDepth obj (depth + 1) := by
  have hself : M.AtDepth (.messageClass p.1) (pathFrom file.scope p.1).length :=
    ⟨file, hfile, p.1, (names_sublist_index file).subset
      (List.mem_append_right _ (List.mem_map_of_mem hp)), rfl, rfl⟩
  obtain rfl := houter.unique hvalid hself
  obtain ⟨rest, hrest⟩ := below_scope hp
  have hdot := no_dot_of_mem_nestedClasses hvalid hfile hp h
  refine ⟨file, hfile, _, mem_index_of_nestedClass hp h, (protoName_of_mem h).1, ?_⟩
  rw [hrest, String.append_assoc, String.append_assoc, pathFrom_append, pathFrom_append,
    ← String.append_assoc, segments_append, segments_of_no_dot hdot, List.length_append,
    List.length_singleton]

/-- **A chain that ends in a generated class** has as many segments as the class is deep. -/
theorem atDepth_of_follow (hvalid : ProtocValid M.files) (hfile : file ∈ M.files)
    {path : List String} (hclass : obj.isClass = true)
    (h : follow (fun name => (M.moduleVars py file).lookup name) (M.getattr py) path
      = some (.obj obj)) : M.AtDepth obj path.length := by
  induction path using List.reverseRecOn generalizing obj with
  | nil => cases h
  | append_singleton path name ih =>
      rw [List.length_append, List.length_singleton]
      by_cases hpath : path = []
      · subst hpath
        rw [List.nil_append, follow_singleton] at h
        obtain ⟨other, hother, htop, -⟩ :=
          topClass_of_lookup hvalid hfile hclass (lookup_moduleVars.mp h)
        exact atDepth_topClass hvalid hother htop
      · rw [follow_concat hpath] at h
        obtain ⟨found, hfound, hattr⟩ := Option.bind_eq_some_iff.mp h
        obtain ⟨p, hp, rfl, hlookup⟩ :=
          (readsClasses_getattr hvalid found name obj hclass).mp hattr
        obtain ⟨file', hfile', hp⟩ := List.mem_flatMap.mp hp
        obtain ⟨inner, hinner⟩ := mem_nestedClasses_of_lookup hvalid hfile' hp hclass hlookup
        exact atDepth_nestedClass hvalid hfile' hp hinner (ih rfl hfound)

/-! ## Resolving the name of a class -/

/-- What is within a top-level class is a class, of a type of the file. -/
theorem mem_index_of_within {top : String × Obj} (htop : top ∈ other.topClasses)
    (h : Within other top obj) :
    obj.isClass = true ∧ ∃ full ∈ other.index.map Prod.fst, obj.protoName = some full := by
  cases h with
  | self => exact ⟨(protoName_of_mem htop).2, _, mem_index_of_topClass htop, (protoName_of_mem htop).1⟩
  | nested hp houter hinner =>
      exact ⟨(protoName_of_mem hinner).2, _, mem_index_of_nestedClass
        (FileDescriptorProto.mem_messages hp).1 hinner, (protoName_of_mem hinner).1⟩

/-- The namespace has a top-level class exactly when the module sees and keeps it. -/
theorem lookup_topClass_iff (hvalid : ProtocValid M.files) (hfile : file ∈ M.files)
    {imported : List (String × String)} (hok : file.externalImports M.index = .ok imported)
    (hother : other ∈ M.files) {top : String × Obj} (htop : top ∈ other.topClasses) :
    (M.moduleVars py file).lookup top.1 = some (.obj top.2) ↔
      (other = file ∨ External M.files file ⟨other.name, top.1⟩) ∧
        Kept M.index file other top.1 := by
  rw [lookup_moduleVars]
  constructor
  · intro h
    obtain ⟨other', hother', htop', hvisible⟩ :=
      topClass_of_lookup hvalid hfile (protoName_of_mem htop).2 h
    have hfull : other'.scope ++ "." ++ top.1 = other.scope ++ "." ++ top.1 :=
      Option.some.inj ((protoName_of_mem htop').1.symm.trans (protoName_of_mem htop).1)
    have hindex := mem_index_of_topClass htop'
    rw [hfull] at hindex
    obtain rfl := file_unique hvalid hother' hother hindex (mem_index_of_topClass htop)
    exact ⟨hvisible, ((lookup_visible hvalid hfile hok hother hvisible htop).mp h).2⟩
  · rintro ⟨hvisible, hkept⟩
    exact (lookup_visible hvalid hfile hok hother hvisible htop).mpr ⟨rfl, hkept⟩

/-- **When the full name of a class resolves to it**: the module sees and keeps its container, every
step to it is exposed, and no suffix that begins in the package leads anywhere. -/
theorem resolve_class_iff (hvalid : ProtocValid M.files) (hfile : file ∈ M.files)
    {imported : List (String × String)} (hok : file.externalImports M.index = .ok imported)
    (hother : other ∈ M.files) {top : String × Obj} (htop : top ∈ other.topClasses)
    (hobj : Within other top obj) (hname : obj.protoName = some ("." ++ name)) :
    resolve (M.getattr py) (M.moduleVars py file) name = .ok (.obj obj) ↔
      ((other = file ∨ External M.files file ⟨other.name, top.1⟩) ∧
        Kept M.index file other top.1) ∧
      Walkable other id ("." ++ name) ∧
      ∀ start < other.packageDepth,
        chainAt (M.getattr py) (M.moduleVars py file) ((segments name).drop start) = none := by
  have hdot : '.' ∉ top.1.toList := by
    rcases mem_classesIn.mp htop with ⟨enum, henum, hfst, -⟩ | ⟨msg, hmsg, -, hfst, -⟩
    · exact hfst ▸ no_dot_of_isIdentifier (hvalid.wellNamed.enumNames other hother enum henum)
    · exact hfst ▸ no_dot_of_isIdentifier (hvalid.wellNamed.messageNames other hother msg hmsg)
  obtain ⟨hclass, full, hfull, hproto⟩ := mem_index_of_within htop hobj
  have hdepth : M.AtDepth obj ((segments name).drop other.packageDepth).length := by
    obtain rfl : full = "." ++ name := Option.some.inj (hproto.symm.trans hname)
    exact ⟨other, hother, _, hfull, hproto, by rw [pathFrom_scope]⟩
  -- the chain behind the package is the path in the module
  have hpath : chainAt (M.getattr py) (M.moduleVars py file)
        ((segments name).drop other.packageDepth) = some (.obj obj) ↔
      ((other = file ∨ External M.files file ⟨other.name, top.1⟩) ∧
        Kept M.index file other top.1) ∧ Walkable other id ("." ++ name) := by
    rw [chainAt_eq, ← pathFrom_scope, follow_iff_walkable hvalid hother (readsClasses_getattr hvalid)
      htop hdot hobj hname, lookup_topClass_iff hvalid hfile hok hother htop]
  rw [resolve_eq_ok, ← and_assoc, ← hpath]
  constructor
  · rintro ⟨start, hchain, hearlier⟩
    -- another suffix has another length, and would lead to a class of another depth
    have hlength : ((segments name).drop start).length
        = ((segments name).drop other.packageDepth).length :=
      (atDepth_of_follow hvalid hfile hclass (chainAt_eq _ _ _ ▸ hchain)).unique hvalid hdepth
    have hne : (segments name).drop start ≠ [] := by
      intro hnil
      rw [hnil] at hchain
      cases hchain
    rw [List.length_drop, List.length_drop] at hlength
    rw [Ne, List.drop_eq_nil_iff, not_le] at hne
    obtain rfl : start = other.packageDepth := by omega
    exact ⟨hchain, hearlier⟩
  · rintro ⟨hchain, hearlier⟩
    exact ⟨other.packageDepth, hchain, hearlier⟩

/-! ## The references of a descriptor -/

section References

variable {p q : String × DescriptorProto} {field : FieldDescriptorProto} {full : String}

/-- A type that a class is generated for. -/
def Generated (files : List FileDescriptorProto) (full : String) : Prop :=
  full ∈ (enumsOf files).map Prod.fst ∨ ∃ q ∈ messagesOf files, q.1 = full ∧ q.2.mapEntry = false

/-- Full names begin with a dot, which a reference drops. -/
theorem dot_fullName {scope : String} (hscope : scope = "" ∨ ∃ package, scope = "." ++ package)
    (rest : String) : "." ++ fullName (scope ++ "." ++ rest) = scope ++ "." ++ rest := by
  have hdrop : ∀ name : String, fullName ("." ++ name) = name := by
    intro name
    rw [fullName, String.toList_append]
    exact String.ofList_toList
  rcases hscope with rfl | ⟨package, rfl⟩
  · rw [String.empty_append, hdrop]
  · rw [String.append_assoc, String.append_assoc, hdrop]

/-- The scope of a file begins with a dot, if it is not empty. -/
theorem scope_cases (file : FileDescriptorProto) :
    file.scope = "" ∨ ∃ package, file.scope = "." ++ package := by
  unfold FileDescriptorProto.scope
  split
  · exact .inl rfl
  · exact .inr ⟨_, rfl⟩

/-- The full name of a message begins with a dot. -/
theorem dot_message {files : List FileDescriptorProto} (hq : q ∈ messagesOf files) :
    "." ++ fullName q.1 = q.1 := by
  obtain ⟨file, -, hq⟩ := List.mem_flatMap.mp hq
  obtain ⟨rest, hrest⟩ := below_scope hq
  rw [hrest]
  exact dot_fullName (scope_cases file) rest

/-- The full name of an enum begins with a dot. -/
theorem dot_enum {files : List FileDescriptorProto} (h : full ∈ (enumsOf files).map Prod.fst) :
    "." ++ fullName full = full := by
  obtain ⟨e, he, rfl⟩ := List.mem_map.mp h
  obtain ⟨file, -, he⟩ := List.mem_flatMap.mp he
  rcases List.mem_append.mp he with he | he
  · obtain ⟨enum, -, rfl⟩ := List.mem_map.mp he
    exact dot_fullName (scope_cases file) _
  · obtain ⟨r, hr, he⟩ := List.mem_flatMap.mp he
    obtain ⟨enum, -, rfl⟩ := List.mem_map.mp he
    obtain ⟨rest, hrest⟩ := below_scope hr
    rw [hrest, String.append_assoc, String.append_assoc]
    exact dot_fullName (scope_cases file) _

/-- The parser keeps the type of the value of a map entry. -/
theorem entry_value {entry : DescriptorProto} {key value : FieldDescriptorProto}
    (hfields : entry.field = [key, value]) (hpair : IsKeyValue key value) {e : String × MapEntry}
    (he : entry.entry = some e) :
    e.2.value = value.type.mapValue ∧ e.2.valueTypeName = value.type.className := by
  unfold DescriptorProto.entry NestedState.entry at he
  dsimp only at he
  split at he
  · cases he
    rw [hfields, List.foldl_cons, List.foldl_cons, List.foldl_nil]
    simp [NestedState.addProto, hpair.keyNumber, hpair.valueNumber]
  · cases he

/-- **The type that a compiled field keeps**: that of the field, or of the value of its map entry; in
either case the type of a field that refers to no map entry. -/
theorem exists_keptType (hvalid : ProtocValid M.files) (hfile : file ∈ M.files)
    (hp : p ∈ file.messages) (hfield : field ∈ p.2.field) :
    ∃ q ∈ messagesOf M.files, ∃ kept ∈ q.2.field,
      (∀ r ∈ messagesOf M.files, r.2.mapEntry = true → kept.type ≠ .message r.1) ∧
      (field.compile p.2.parts.mapEntries p.2.name).typeName = kept.type.className ∧
      ((field.compile p.2.parts.mapEntries p.2.name).kind = kept.type.kind ∨
        ∃ key, (field.compile p.2.parts.mapEntries p.2.name).kind = .map key kept.type.mapValue) := by
  have hpm : p ∈ messagesOf M.files := List.mem_flatMap.mpr ⟨file, hfile, hp⟩
  cases hentry : field.mapEntry p.2.parts.mapEntries p.2.name with
  | none =>
      refine ⟨p, hpm, field, hfield, fun q hq hmap htype => ?_,
        by rw [FieldDescriptorProto.compile, hentry], .inl (compile_kind hentry)⟩
      obtain ⟨file', hfile', hq⟩ := List.mem_flatMap.mp hq
      obtain ⟨-, hnested, hfull⟩ := hvalid.entry_field hfile hfile' hp hq hfield hmap htype
      obtain ⟨e, he⟩ := (mapEntry_parts hvalid hfile hp hfield).mpr
        (.inl ⟨q.2, hnested, hmap, by rw [htype, hfull]⟩)
      rw [hentry] at he
      cases he
  | some e =>
      have hcompile : (field.compile p.2.parts.mapEntries p.2.name).typeName = e.valueTypeName ∧
          (field.compile p.2.parts.mapEntries p.2.name).kind = .map e.key e.value := by
        rw [FieldDescriptorProto.compile, hentry]
        exact ⟨rfl, rfl⟩
      -- the entry is one of the nested types
      unfold FieldDescriptorProto.mapEntry findMapEntry at hentry
      split at hentry
      · split at hentry
        · cases hentry
        · split at hentry
          · have hmem := List.mem_reverse.mp (mem_of_lookup hentry)
            obtain ⟨entry, hnested, heq⟩ := List.mem_filterMap.mp hmem
            have hmap := entry.entry_isSome.mp ⟨_, heq⟩
            have hem := file.nested_mem hp hnested
            obtain ⟨kv, hkv, hpair⟩ := (hvalid.message hfile hem).entry hmap
            have hfields := keyValue_of_mem hkv
            dsimp only at hfields
            obtain ⟨hvalue, hname⟩ := entry_value hfields hpair heq
            refine ⟨_, List.mem_flatMap.mpr ⟨file, hfile, hem⟩, kv.2, by rw [hfields]; simp,
              fun q hq hmap' htype => ?_, hcompile.1.trans hname, .inr ⟨e.key, ?_⟩⟩
            · -- the value of a map is not repeated, a reference to a map entry is
              obtain ⟨file', hfile', hq⟩ := List.mem_flatMap.mp hq
              obtain ⟨hrep, -, -⟩ := hvalid.entry_field hfile hfile' hem hq
                (by rw [hfields]; simp) hmap' htype
              rw [hpair.singular.2] at hrep
              cases hrep
            · rw [hcompile.2, ← hvalue]
          · cases hentry
      · cases hentry

/-- **What a descriptor refers to** has a generated class. -/
theorem generated_of_refField (hvalid : ProtocValid M.files) (hfile : file ∈ M.files)
    (hp : p ∈ file.messages) {r : UInt32 × String} (hr : r ∈ p.2.compiled.refFields) :
    Generated M.files ("." ++ r.2) := by
  obtain ⟨compiled, hcompiled, hsome⟩ := List.mem_filterMap.mp hr
  obtain ⟨field, hfield, rfl⟩ := List.mem_map.mp hcompiled
  split at hsome
  · obtain ⟨name, hname, rfl⟩ := Option.map_eq_some_iff.mp hsome
    obtain ⟨q, hq, kept, hkept, hplain, htypeName, -⟩ := exists_keptType hvalid hfile hp hfield
    rw [(clampOneof_keeps _ _).2.2, htypeName] at hname
    cases htype : kept.type with
    | scalar s =>
        rw [htype] at hname
        cases hname
    | enum typeName =>
        rw [htype] at hname
        cases hname
        have hmem := (hvalid.messages q hq).enumRefs kept hkept typeName
          (ProtoType.mem_enumName.mpr htype)
        exact .inl (by rw [dot_enum hmem]; exact hmem)
    | message typeName =>
        rw [htype, ProtoType.className] at hname
        split at hname
        · cases hname
        · cases hname
          obtain ⟨m, hm, rfl⟩ := List.mem_map.mp ((hvalid.messages q hq).messageRefs kept hkept
            typeName (ProtoType.mem_messageName.mpr htype))
          refine .inr ⟨m, hm, (dot_message hm).symm, ?_⟩
          rw [Bool.eq_false_iff]
          exact fun hmap => hplain m hm hmap htype
  · cases hsome

/-- **Where the class of a type stands**: within the class of the top-level type that contains it. -/
theorem exists_within (hvalid : ProtocValid M.files) (h : Generated M.files full) :
    ∃ other ∈ M.files, ∃ top ∈ other.topClasses, Contains other top.1 full ∧
      Within other top (M.classFor full) ∧ (M.classFor full).protoName = some full := by
  rcases h with henum | ⟨q, hq, rfl, hmap⟩
  · rw [classFor, if_pos henum]
    obtain ⟨other, hother, ⟨enum, hmem, rfl⟩ | ⟨root, hroot, p, hp, enum, hmem, rfl⟩⟩ :=
      enum_site hvalid henum
    · exact ⟨other, hother, (enum.name, .enumClass (other.scope ++ "." ++ enum.name)),
        mem_classesIn.mpr (.inl ⟨enum, hmem, rfl, rfl⟩), .enum hmem rfl, .self, rfl⟩
    · exact ⟨other, hother, (root.name, .messageClass (other.scope ++ "." ++ root.name)),
        mem_classesIn.mpr (.inr ⟨root, hroot, isUserFacing_of_tree hp, rfl, rfl⟩),
        .nestedEnum hroot rfl ((tree_sublist (fun _ _ => rfl) _ _).subset hp) hmem,
        .nested (FileDescriptorProto.mem_allMessages_of_tree hroot hp) (within_of_tree hroot hp)
          (mem_classesIn.mpr (.inl ⟨enum, hmem, rfl, rfl⟩)), rfl⟩
  · have hnot : q.1 ∉ (enumsOf M.files).map Prod.fst := by
      intro hmem
      obtain ⟨e, he, heq⟩ := List.mem_map.mp hmem
      exact message_ne_enum hvalid hq he heq.symm
    rw [classFor, if_neg hnot]
    obtain ⟨other, hother, hq⟩ := List.mem_flatMap.mp hq
    have huser := hvalid.mem_allMessages hother hq hmap
    rw [FileDescriptorProto.allMessages, forest_eq] at huser
    obtain ⟨root, hroot, hp⟩ := List.mem_flatMap.mp huser
    exact ⟨other, hother, (root.name, .messageClass (other.scope ++ "." ++ root.name)),
      mem_classesIn.mpr (.inr ⟨root, hroot, isUserFacing_of_tree hp, rfl, rfl⟩),
      .message hroot rfl ((tree_sublist (fun _ _ => rfl) _ _).subset hp), within_of_tree hroot hp,
      rfl⟩

/-- A type is contained in one top-level definition. -/
theorem contains_unique (hvalid : ProtocValid M.files) (hfile : file ∈ M.files)
    (hother : other ∈ M.files) {top top' : String} (h : Contains file top full)
    (h' : Contains other top' full) : file = other ∧ top = top' := by
  obtain ⟨info, hinfo, hname, rfl⟩ := indexed_of_contains hvalid.wellNamed hfile h
  obtain ⟨info', hinfo', hname', rfl⟩ := indexed_of_contains hvalid.wellNamed hother h'
  have hget := TypeIndex.get_of_mem hvalid.typeNames hinfo
  rw [TypeIndex.get_of_mem hvalid.typeNames hinfo', Option.some.injEq] at hget
  subst hget
  exact ⟨List.inj_on_of_nodup_map hvalid.fileNames hfile hother (hname.symm.trans hname'), rfl⟩

/-- **A type can be resolved from a module**: the module has its container, as its own or imported,
and keeps the name; every step to the type is exposed; and no suffix of the name that begins in the
package is a chain of attributes of the namespace. -/
def Resolvable (M : ModuleSet) (py : PythonNames) (file : FileDescriptorProto) (name : String) :
    Prop :=
  ∃ other ∈ M.files, ∃ top, Contains other top ("." ++ name) ∧
    (other = file ∨ External M.files file ⟨other.name, top⟩) ∧
    Kept M.index file other top ∧ Walkable other id ("." ++ name) ∧
    ∀ start < other.packageDepth,
      chainAt (M.getattr py) (M.moduleVars py file) ((segments name).drop start) = none

/-- A reference resolves to the class of its type exactly when the type can be resolved. -/
theorem resolve_refField_iff (py : PythonNames) (hvalid : ProtocValid M.files)
    (hfile : file ∈ M.files) {imported : List (String × String)}
    (hrendered : file.externalImports M.index = .ok imported) (hp : p ∈ file.messages)
    {reference : UInt32 × String} (hreference : reference ∈ p.2.compiled.refFields) :
    resolve (M.getattr py) (M.moduleVars py file) reference.2
        = .ok (.obj (M.classFor ("." ++ reference.2))) ↔
      M.Resolvable py file reference.2 := by
  have hgenerated := generated_of_refField hvalid hfile hp hreference
  obtain ⟨other, hother, top, htop, hcontains, hwithin, hname⟩ := exists_within hvalid hgenerated
  rw [resolve_class_iff hvalid hfile hrendered hother htop hwithin hname]
  constructor
  · rintro ⟨⟨hvisible, hkept⟩, hwalk, hfree⟩
    exact ⟨other, hother, top.1, hcontains, hvisible, hkept, hwalk, hfree⟩
  · rintro ⟨other', hother', top', hcontains', hvisible, hkept, hwalk, hfree⟩
    obtain ⟨rfl, rfl⟩ := contains_unique hvalid hother hother' hcontains hcontains'
    exact ⟨⟨hvisible, hkept⟩, hwalk, hfree⟩

/-- **References resolve to the class of their type** exactly when it can be resolved, for every
reference of every descriptor of a module. -/
theorem resolves_iff (py : PythonNames) (hvalid : ProtocValid M.files) (hfile : file ∈ M.files)
    {imported : List (String × String)} (hrendered : file.externalImports M.index = .ok imported)
    (hp : p ∈ file.allMessages) {desc : MessageDescriptor} (hdesc : parseMessage p.2.bytes = .ok desc)
    {reference : UInt32 × String} (hreference : reference ∈ desc.refFields) :
    resolve (M.getattr py) (M.moduleVars py file) reference.2
        = .ok (.obj (M.classFor ("." ++ reference.2))) ↔
      M.Resolvable py file reference.2 := by
  have hmem := (FileDescriptorProto.mem_messages hp).1
  have hsize := (hvalid.message hfile hmem).size
  rw [p.2.parseMessage_bytes (by omega), Except.ok.injEq] at hdesc
  subst hdesc
  exact resolve_refField_iff py hvalid hfile hrendered hmem hreference

end References

/-- No chain begins with a name that the module does not have. -/
theorem chainAt_unbound {path : List String} (h : ∀ head ∈ path.head?,
    (M.moduleVars py file).lookup head = none) :
    chainAt (M.getattr py) (M.moduleVars py file) path = none := by
  cases path with
  | nil => rfl
  | cons head rest => rw [chainAt, h head rfl, Option.bind_none]

/-- The names that Python adds to a module, and the attributes of the objects there that matter to a
reference. -/
def cpython : PythonNames where
  moduleNames := ["__name__", "__package__", "__loader__", "__spec__", "__file__", "__cached__",
    "__builtins__"]
  has
    | .obj (.messageClass _), name => messageAttributes.contains name
    | .obj (.descriptor _), name => bytesAttributes.contains name
    | _, _ => false

/-- `message Inner {}`. -/
def innerMessage : DescriptorProto where
  name := "Inner"

/-- `message Outer { Inner inner = 1; message Inner {} }`. -/
def outerMessage : DescriptorProto where
  name := "Outer"
  field := [{ name := "inner", number := 1, type := .message ".pkg.Outer.Inner" }]
  nestedType := [innerMessage]

/-- A file of package `pkg` with that message. -/
def packageFile : FileDescriptorProto where
  name := "package.proto"
  package := "pkg"
  messageType := [outerMessage]

/-- The module of the file alone. -/
def packageModule : ModuleSet := ⟨[packageFile], [packageFile]⟩

/-- `message Outer { message Inner {} }` with other fields. -/
def outerWith (fields : List FieldDescriptorProto) : DescriptorProto :=
  { outerMessage with field := fields }

/-- The file with those fields. -/
def packageWith (fields : List FieldDescriptorProto) : FileDescriptorProto :=
  { packageFile with messageType := [outerWith fields] }

/-- The module of that file alone. -/
def packageModuleWith (fields : List FieldDescriptorProto) : ModuleSet :=
  ⟨[packageWith fields], [packageWith fields]⟩

/-- The messages of the file. -/
theorem allMessages_packageWith (fields : List FieldDescriptorProto) :
    (packageWith fields).allMessages
      = [(".pkg.Outer", outerWith fields), (".pkg.Outer.Inner", innerMessage)] := by
  rfl

/-- **The nested message can be resolved**, whatever the fields, while nothing takes the names on the
way to it. -/
theorem resolvable_inner {fields : List FieldDescriptorProto}
    (hkeeps : KeepsName (packageModuleWith fields).index (packageWith fields) "Outer")
    (hexposed : Exposed (outerWith fields) "Inner" "Inner")
    (hpkg : ((packageModuleWith fields).moduleVars cpython (packageWith fields)).lookup "pkg" = none) :
    (packageModuleWith fields).Resolvable cpython (packageWith fields) "pkg.Outer.Inner" := by
  have hdot : "." ++ "pkg.Outer.Inner" = ".pkg.Outer.Inner" := by decide
  rw [Resolvable, hdot]
  -- the path to the nested message, and then the suffixes that begin in the package
  refine ⟨packageWith fields, List.mem_cons_self, "Outer", ?_, .inl rfl,
    ⟨hkeeps, fun hne => absurd rfl hne⟩, ?_, ?_⟩
  · have hroot : outerWith fields ∈ (packageWith fields).messageType := List.mem_cons_self
    have hinner : (".pkg.Outer.Inner", innerMessage)
        ∈ (outerWith fields).tree (fun _ => true) packageFile.scope :=
      List.mem_cons_of_mem _ List.mem_cons_self
    exact .message hroot rfl hinner
  · rw [Walkable, allMessages_packageWith]
    intro outer houter inner hinner _
    rcases List.mem_pair.mp houter with rfl | rfl
    · rw [List.mem_singleton.mp hinner]
      exact hexposed
    · cases hinner
  · intro start hstart
    obtain rfl : start = 0 := by
      have hdepth : (packageWith fields).packageDepth = 1 := by
        show packageFile.packageDepth = 1
        decide
      omega
    refine chainAt_unbound fun head hhead => ?_
    obtain rfl : head = "pkg" := by
      have hsegments : segments "pkg.Outer.Inner" = ["pkg", "Outer", "Inner"] := by decide
      rw [hsegments] at hhead
      exact (Option.some.inj hhead).symm
    exact hpkg

set_option maxRecDepth 20000 in
/-- The reference to the nested message resolves to its class. -/
theorem resolves_iff_inner : ProtocValid packageModule.files ∧
    resolve (packageModule.getattr cpython) (packageModule.moduleVars cpython packageFile)
        "pkg.Outer.Inner" = .ok (.obj (packageModule.classFor ".pkg.Outer.Inner")) := by
  have hvalid : ProtocValid packageModule.files := by decide
  have hfile : packageFile ∈ packageModule.files := List.mem_cons_self
  have hrendered : packageFile.externalImports packageModule.index = .ok [] := by decide
  have hp : (".pkg.Outer", outerMessage) ∈ packageFile.allMessages := List.mem_cons_self
  have hsize := (hvalid.message hfile (FileDescriptorProto.mem_messages hp).1).size
  have hreference : ((1, "pkg.Outer.Inner") : UInt32 × String) ∈ outerMessage.compiled.refFields := by
    decide
  exact ⟨hvalid, (resolves_iff cpython hvalid hfile hrendered hp
    (outerMessage.parseMessage_bytes (Nat.lt_trans hsize (by decide))) hreference).mpr
    (@resolvable_inner outerMessage.field (by unfold KeepsName; decide) (by unfold Exposed; decide)
      (by decide))⟩

end ModuleSet

end FastProto
