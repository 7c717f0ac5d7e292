import FastProto.GeneratedReads

/-! # Hygiene of generated modules

Names of types and fields are bound in the scopes that generated code keeps reading from. A module is
`Hygienic` when every read yields what the code generator means, and no method of `Message` is
replaced; `hygienic_iff` says for which accepted files that is so. -/

namespace FastProto

open Lib

/-! ## Places of fields -/

/-- The same for one of the user-facing messages, in order. -/
theorem FileDescriptorProto.mem_allMessages_of_root {file : FileDescriptorProto}
    {earlier later : List DescriptorProto} {root : DescriptorProto}
    (hsplit : file.messageType.filter (·.isUserFacing) = earlier ++ root :: later)
    {p : String × DescriptorProto} (hp : p ∈ root.tree DescriptorProto.isUserFacing file.scope) :
    p ∈ file.allMessages := by
  have hmem : root ∈ file.messageType.filter (·.isUserFacing) := by rw [hsplit]; simp
  exact FileDescriptorProto.mem_allMessages_of_tree (List.mem_filter.mp hmem).1 hp

/-- A statement of a class body is one of its classes, or a field line behind them. -/
theorem classBody_split {index : TypeIndex} {p : String × DescriptorProto} {before after : List Stmt}
    {s : Stmt} (hbody : classBody index p = before ++ s :: after) :
    (∃ back, p.2.enumType.map (enumStmt p.1) ++ renderClasses index p.1 p.2.nestedType
        = before ++ s :: back) ∨
    ∃ front, before = p.2.enumType.map (enumStmt p.1)
        ++ renderClasses index p.1 p.2.nestedType ++ front ∧
      fieldStmts index p.2.field = front ++ s :: after := by
  rw [classBody] at hbody
  rcases List.append_eq_append_iff.mp hbody with h | ⟨back, hclass, hrest⟩
  · exact .inr h
  · cases back with
    | nil => exact .inr ⟨[], by rw [hclass, List.append_nil, List.append_nil], hrest.symm⟩
    | cons s' back =>
        cases hrest
        exact .inl ⟨back, hclass⟩

/-- **Where a field stands** in a module: the top-level messages in front of the one it is in, that
message, the message it is a field of, and the fields in front of it there. -/
structure FieldPlace where
  earlier : List DescriptorProto
  root : DescriptorProto
  outer : String × DescriptorProto
  before : List FieldDescriptorProto
  field : FieldDescriptorProto

namespace FieldPlace

variable (place : FieldPlace)

/-- The place is one of a file. -/
structure In (file : FileDescriptorProto) : Prop where
  root : ∃ later, file.messageType.filter (·.isUserFacing) = place.earlier ++ place.root :: later
  outer : place.outer ∈ place.root.tree DescriptorProto.isUserFacing file.scope
  field : ∃ after, place.outer.2.field = place.before ++ place.field :: after

/-- The class whose body the field stands in. -/
def cls : Option String := some place.outer.2.name

/-- The names that the class body has bound after some fields, as Python rewrites them. -/
def bound (fields : List FieldDescriptorProto) : List String :=
  ((nestedClasses place.outer).map Prod.fst ++ fields.map (·.name)).map (mangle place.cls)

/-- **An infrastructure name is free** in the class body after some fields: nothing imported, no enum
and no message of the module so far, and nothing in the body has the name. -/
def Free (files : List FileDescriptorProto) (file : FileDescriptorProto)
    (fields : List FieldDescriptorProto) (name : String) : Prop :=
  ¬ ImportsName files file name ∧ name ∉ file.enumType.map (·.name) ∧
    name ∉ place.earlier.map (·.name) ∧ name ∉ place.bound fields

/-- The scope of the class body after some fields. -/
def frame (M : ModuleSet) (file : FileDescriptorProto) (fields : List FieldDescriptorProto) :
    Lib.Frame Obj :=
  scopeAfter (bodyStart (M.beforeRoot file place.earlier place.root).moduleScope place.outer)
    (place.outer.2.enumType.map (enumStmt place.outer.1)
      ++ renderClasses M.index place.outer.1 place.outer.2.nestedType ++ fieldStmts M.index fields)

variable {place} {file : FileDescriptorProto}

/-- The message around the field is one of the file. -/
theorem In.mem_allMessages (h : place.In file) : place.outer ∈ file.allMessages := by
  obtain ⟨later, hroot⟩ := h.root
  exact FileDescriptorProto.mem_allMessages_of_root hroot h.outer

/-- The field is one of the message. -/
theorem In.mem_field (h : place.In file) : place.field ∈ place.outer.2.field := by
  obtain ⟨after, hfield⟩ := h.field
  rw [hfield]
  simp

end FieldPlace

/-! ## Enum names -/

/-- The enums that a type expression names: the full name, and the path that stands for it. -/
def TypeExpr.enums : TypeExpr → List (String × String)
  | .named (.enum full) qualified => [(full, qualified)]
  | .named _ _ | .scalar _ | .native _ => []
  | .list element => element.enums
  | .dict key value => key.enums ++ value.enums
  | .optional type => type.enums

/-- **The enum names a field line reads where it stands**, each with its scope: in `E(0)` before the
field is bound, in an annotation that is not quoted after. -/
def Stmt.enumReads (fr : Lib.Frame Obj) : Stmt → List (Lib.Frame Obj × String × String)
  | .field f line =>
      (match line.default with
        | .enumZero qualified => f.type.enumName.toList.map fun full => (fr, full, qualified)
        | _ => [])
      ++ if line.quoted then [] else line.annot.enums.map fun e => (fr.bind (line.name, .value), e)
  | _ => []

/-- The enum name that a field line reads in a lambda, once its module is finished. -/
def Stmt.lambdaReads : Stmt → List (String × String)
  | .field f line =>
      match line.default with
      | .enumFactory qualified => f.type.enumName.toList.map fun full => (full, qualified)
      | _ => []
  | _ => []

/-! ## Hygiene -/

/-- The methods of `Message`. -/
def messageMethods : List String := ["to_bytes", "from_bytes", "which_oneof", "to_dict", "from_dict"]

/-- **A module is hygienic**: infrastructure names yield the imported or builtin objects, enum names
the class of the enum of the field, and no class or field of a class body replaces a method. -/
structure ModuleSet.Hygienic (M : ModuleSet) (file : FileDescriptorProto) : Prop where
  infra : ∀ e ∈ M.events file, ∀ r ∈ e.2.infraReads e.1,
    r.1.read pythonBuiltins r.2 = some (infraObj r.2)
  enums : ∀ e ∈ M.events file, ∀ r ∈ e.2.enumReads e.1,
    (M.eager r.1).path r.2.2 = .ok (.obj (.enumClass r.2.1))
  lambdas : ∀ e ∈ M.events file, ∀ r ∈ e.2.lambdaReads,
    (M.deferred file e.1.cls).path r.2 = .ok (.obj (.enumClass r.1))
  methods : ∀ p ∈ file.allMessages, ∀ name ∈ messageMethods, (M.classScope p).lookup name = none

/-- A field that holds one value of an enum with a generated class. -/
def FieldDescriptorProto.IsSingularEnum (field : FieldDescriptorProto) (full : String) : Prop :=
  field.repeated = false ∧ field.type = .enum full ∧ nativeWkt full = none

/-- **Nothing in a file shadows what its module reads.** -/
structure Unshadowed (files : List FileDescriptorProto) (file : FileDescriptorProto) : Prop where
  /-- No imported class has a name that constants and classes read. -/
  classes : ∀ name ∈ ["bytes", "message", "dataclass", "Message"], ¬ ImportsName files file name
  /-- No imported class has the name of the base of enums, if there are any. -/
  intEnum : file.hasEnum = true → ¬ ImportsName files file "IntEnum"
  /-- What a field line reads is free where it stands. -/
  fields : ∀ place : FieldPlace, place.In file →
    (∀ name ∈ place.field.defaultInfra (TypeIndex.build files),
      place.Free files file place.before name) ∧
    ∀ name ∈ place.field.annotInfra (TypeIndex.build files),
      place.Free files file (place.before ++ [place.field]) name
  /-- The name of a top-level enum is not rewritten, nor bound in the class body up to the field
  itself, nor taken by a constant. -/
  enums : ∀ place : FieldPlace, place.In file → ∀ other ∈ files, ∀ enum ∈ other.enumType,
    place.field.IsSingularEnum (other.scope ++ "." ++ enum.name) →
      mangle place.cls enum.name = enum.name ∧
      enum.name ∉ place.bound (place.before ++ [place.field]) ∧
      KeptBefore (TypeIndex.build files) file other (place.earlier ++ [place.root]) enum.name
  /-- The container of a nested enum is kept, and every step to the enum is exposed under the name the
  lambda reads. -/
  lambdas : ∀ place : FieldPlace, place.In file → ∀ other ∈ files, ∀ root ∈ other.messageType,
    ∀ p ∈ root.tree DescriptorProto.isUserFacing other.scope, ∀ enum ∈ p.2.enumType,
      place.field.IsSingularEnum (p.1 ++ "." ++ enum.name) → place.field.hasPresence = false →
        mangle place.cls root.name = root.name ∧
        Kept (TypeIndex.build files) file other root.name ∧
        Walkable other (mangle place.cls) (p.1 ++ "." ++ enum.name)
  /-- No nested type has the name of a method. -/
  methods : ∀ p ∈ file.allMessages, ∀ name ∈ messageMethods,
    name ∉ (nestedClasses p).map Prod.fst

namespace ModuleSet

variable {M : ModuleSet} {file : FileDescriptorProto}

/-- What runs within the class of a top-level message runs in the module. -/
theorem events_of_root {earlier later : List DescriptorProto} {root : DescriptorProto}
    (hsplit : file.messageType.filter (·.isUserFacing) = earlier ++ root :: later) {e : Event}
    (he : e ∈ (classStmt M.index (file.scope ++ "." ++ root.name, root)).events
      (M.beforeRoot file earlier root)) : e ∈ M.events file :=
  mem_eventsOf.mpr ⟨_, _, _, FileDescriptorProto.blocks_split hsplit, he⟩

/-- Every statement at module level runs. -/
theorem event_of_block {s : Stmt} (hs : s ∈ file.blocks M.index) : ∃ fr, (fr, s) ∈ M.events file := by
  obtain ⟨before, after, hblocks⟩ := List.append_of_mem hs
  refine ⟨scopeAfter (M.header file) before, ?_⟩
  rw [events, hblocks]
  exact self_mem_eventsOf

/-- **What stands in a class body runs** behind the statements in front of it. -/
theorem event_of_body {earlier later : List DescriptorProto} {root : DescriptorProto}
    (hsplit : file.messageType.filter (·.isUserFacing) = earlier ++ root :: later)
    {outer : String × DescriptorProto}
    (houter : outer ∈ root.tree DescriptorProto.isUserFacing file.scope) {before after : List Stmt}
    {s : Stmt} (hbody : classBody M.index outer = before ++ s :: after) :
    (scopeAfter (bodyStart (M.beforeRoot file earlier root).moduleScope outer) before, s)
      ∈ M.events file := by
  have hforest : outer ∈ forest DescriptorProto.isUserFacing file.scope [root] := by
    rw [forest_eq, List.flatMap_singleton]
    exact houter
  obtain ⟨root', hroot', -, hevents⟩ := body_event_of_forest hforest hbody
  obtain rfl := List.mem_singleton.mp hroot'
  exact events_of_root hsplit (hevents _)

/-- **The field lines that run** are those of the places of the file. -/
theorem field_event_iff {fr : Lib.Frame Obj} {field : FieldDescriptorProto} {line : FieldLine} :
    (fr, .field field line) ∈ M.events file ↔ ∃ place : FieldPlace, place.In file ∧
      place.field = field ∧ renderField M.index field = some line ∧
      fr = place.frame M file place.before := by
  constructor
  · intro h
    rcases FileDescriptorProto.event_of_blocks h with ⟨-, before, after, hblocks, -⟩ |
      ⟨earlier, root, later, hsplit, heq | ⟨outer, houter, before, after, hbody, hfr⟩⟩
    · -- no field stands at module level
      have hmem : Stmt.field field line ∈ file.blocks M.index := by rw [hblocks]; simp
      rcases FileDescriptorProto.mem_blocks.mp hmem with ⟨enum, -, heq⟩ |
        ⟨root, -, -, ⟨q, -, heq⟩ | heq⟩ <;> cases heq
    · cases heq
    · dsimp only at hbody hfr
      have hclasses : Stmt.field field line ∉ outer.2.enumType.map (enumStmt outer.1)
          ++ renderClasses M.index outer.1 outer.2.nestedType := by
        rw [List.mem_append, renderClasses_eq]
        rintro (hmem | hmem)
        · obtain ⟨enum, -, heq⟩ := List.mem_map.mp hmem
          cases heq
        · obtain ⟨msg, -, heq⟩ := List.mem_map.mp hmem
          rw [DescriptorProto.renderClass_eq] at heq
          cases heq
      obtain ⟨front, hbefore, hfields⟩ := (classBody_split hbody).resolve_left fun ⟨back, hback⟩ =>
        hclasses (by rw [hback]; simp)
      obtain ⟨fields, rest, hfield, rfl, hrest⟩ := List.filterMap_eq_append_iff.mp hfields
      obtain ⟨skipped, field', rest', rfl, hskipped, hline, -⟩ :=
        List.filterMap_eq_cons_iff.mp hrest
      obtain ⟨line', hline, heq⟩ := Option.map_eq_some_iff.mp hline
      cases heq
      refine ⟨⟨earlier, root, outer, fields ++ skipped, field⟩, ⟨⟨later, hsplit⟩, houter,
        ⟨rest', by rw [hfield, List.append_assoc]⟩⟩, rfl, hline, ?_⟩
      have hnone : fieldStmts M.index skipped = [] :=
        List.filterMap_eq_nil_iff.mpr hskipped
      rw [hfr, hbefore, FieldPlace.frame]
      dsimp only
      rw [fieldStmts, List.filterMap_append, ← fieldStmts, ← fieldStmts, hnone, List.append_nil]
      rfl
  · rintro ⟨place, hplace, rfl, hline, rfl⟩
    obtain ⟨later, hsplit⟩ := hplace.root
    obtain ⟨after, hfield⟩ := hplace.field
    have hfields : fieldStmts M.index place.outer.2.field = fieldStmts M.index place.before
        ++ .field place.field line :: fieldStmts M.index after := by
      rw [hfield, fieldStmts, List.filterMap_append, List.filterMap_cons, hline]
      rfl
    exact event_of_body hsplit hplace.outer (by rw [classBody, hfields, ← List.append_assoc])

/-! ## Reading at the place of a field -/

/-- What the module has bound under an infrastructure name when a class begins: an enum or a class. -/
theorem beforeClass_names {name : String} (hname : name ∈ infraNames)
    {earlier : List DescriptorProto} {root : DescriptorProto} :
    (∀ s ∈ file.beforeClass M.index earlier root, s.binding.1 ≠ name) ↔
      name ∉ file.enumType.map (·.name) ∧ name ∉ earlier.map (·.name) := by
  have hconstants : ∀ {msg s}, s ∈ collectConstants M.index file.scope msg → s.binding.1 ≠ name := by
    intro msg s hs
    obtain ⟨q, -, rfl⟩ := List.mem_map.mp hs
    exact constName_ne_infra hname
  simp only [List.mem_map, not_exists, not_and]
  constructor
  · intro h
    refine ⟨fun enum henum => h (enumStmt file.scope enum) ?_, fun msg hmsg =>
      h (msg.renderClass M.index file.scope) ?_ ∘ fun heq => ?_⟩
    · exact List.mem_append_left _ (List.mem_append_left _ (List.mem_map_of_mem henum))
    · refine List.mem_append_left _ (List.mem_append_right _ (List.mem_flatMap.mpr ⟨msg, hmsg, ?_⟩))
      exact List.mem_append_right _ (List.mem_singleton_self _)
    · rw [DescriptorProto.renderClass_eq]
      exact heq
  · rintro ⟨henums, hmsgs⟩ s hs
    rcases List.mem_append.mp hs with hs | hs
    · rcases List.mem_append.mp hs with hs | hs
      · obtain ⟨enum, henum, rfl⟩ := List.mem_map.mp hs
        exact henums enum henum
      · obtain ⟨msg, hmsg, hs⟩ := List.mem_flatMap.mp hs
        rcases List.mem_append.mp hs with hs | hs
        · exact hconstants hs
        · rw [List.mem_singleton.mp hs, DescriptorProto.renderClass_eq]
          exact hmsgs msg hmsg
    · exact hconstants hs

section Place

variable {place : FieldPlace} {fields : List FieldDescriptorProto} (hvalid : ProtocValid M.files)
  (hfile : file ∈ M.files) (hplace : place.In file)
  (hfields : ∀ field ∈ fields, field ∈ place.outer.2.field)

include hvalid hfile hplace hfields

/-- What the class body has bound after some fields. -/
theorem bodyFront_bindings : ((place.outer.2.enumType.map (enumStmt place.outer.1)
      ++ renderClasses M.index place.outer.1 place.outer.2.nestedType
      ++ fieldStmts M.index fields).map Stmt.binding)
    = nestedClasses place.outer ++ fields.map fun field => (field.name, .value) := by
  have hmem := (FileDescriptorProto.mem_messages hplace.mem_allMessages).1
  rw [List.map_append, classes_bindings]
  exact congrArg _ (fieldStmts_bindings fun field hfield =>
    exists_line hvalid hfile hmem (hfields field hfield))

/-- **An infrastructure name is read right at the place of a field** exactly while it is free. -/
theorem read_frame {imported : List (String × String)}
    (hok : file.externalImports M.index = .ok imported) {name : String}
    (hprovided : M.Provided file name) :
    (place.frame M file fields).read pythonBuiltins name = some (infraObj name) ↔
      place.Free M.files file fields name := by
  have hbody : (∀ s ∈ place.outer.2.enumType.map (enumStmt place.outer.1)
        ++ renderClasses M.index place.outer.1 place.outer.2.nestedType
        ++ fieldStmts M.index fields, s.binding.1 ≠ name) ↔ name ∉ place.bound fields := by
    have hnames : (nestedClasses place.outer
          ++ fields.map fun field => (field.name, Obj.value)).map Prod.fst
        = (nestedClasses place.outer).map Prod.fst ++ fields.map (·.name) := by
      rw [List.map_append, List.map_map]
      rfl
    rw [← List.forall_mem_map (f := Stmt.binding) (P := fun b => b.1 ≠ name),
      bodyFront_bindings hvalid hfile hplace hfields,
      ← List.forall_mem_map (f := Prod.fst) (P := fun found => found ≠ name), hnames,
      FieldPlace.bound, List.mem_map, not_exists]
    refine forall_congr' fun found => ?_
    rw [not_and, mangle_eq_infra hprovided.1]
  rw [FieldPlace.frame, read_body hvalid hfile hok hprovided, hbody,
    beforeClass_names hprovided.1, FieldPlace.Free]
  tauto

end Place

/-- Once its line has run, a field is bound. -/
theorem frame_concat {place : FieldPlace} {fields : List FieldDescriptorProto}
    {field : FieldDescriptorProto} {line : FieldLine}
    (hline : renderField M.index field = some line) :
    (place.frame M file fields).bind (line.name, .value)
      = place.frame M file (fields ++ [field]) := by
  have hstmts : fieldStmts M.index (fields ++ [field])
      = fieldStmts M.index fields ++ [.field field line] := by
    rw [fieldStmts, List.filterMap_append, List.filterMap_cons, hline]
    rfl
  rw [FieldPlace.frame, FieldPlace.frame, hstmts, ← List.append_assoc, scopeAfter_append _ _ [_]]
  rfl

/-! ## Infrastructure -/

section Infra

variable (hvalid : ProtocValid M.files) (hfile : file ∈ M.files)
  (haccepted : SchemaValidator.validate file = .ok ()) {imported : List (String × String)}
  (hok : file.externalImports M.index = .ok imported) {name : String}

include haccepted in
/-- No class of an accepted file has a name that the module reads at module scope. -/
theorem class_ne_generated (hname : name ∈ generatedNames) {scope : String}
    {enums : List EnumDescriptorProto} {msgs : List DescriptorProto}
    (henums : ∀ enum ∈ enums, SchemaValidator.UsableEnum enum)
    (hmsgs : ∀ msg ∈ msgs, msg.isUserFacing = true →
      (scope ++ "." ++ msg.name, msg) ∈ file.allMessages) :
    ∀ b ∈ classesIn scope enums msgs, b.1 ≠ name := by
  obtain ⟨-, -, husable⟩ := SchemaValidator.validate_ok haccepted
  rintro ⟨found, obj⟩ hb rfl
  rcases mem_classesIn.mp hb with ⟨enum, henum, rfl, -⟩ | ⟨msg, hmsg, hkeep, rfl, -⟩
  · exact (henums enum henum).1.2 hname
  · exact (husable _ (hmsgs msg hmsg hkeep)).name.2 hname

include haccepted in
/-- At module level nothing is bound under such a name. -/
theorem blocks_ne_generated (hname : name ∈ generatedNames) (hinfra : name ∈ infraNames) :
    ∀ s ∈ file.blocks M.index, s.binding.1 ≠ name := by
  obtain ⟨-, henums, -⟩ := SchemaValidator.validate_ok haccepted
  have hclasses : ∀ b ∈ file.topClasses, b.1 ≠ name :=
    class_ne_generated haccepted hname henums fun msg hmsg hkeep =>
      mem_forest.mpr ⟨msg, hmsg, hkeep, .inl rfl⟩
  refine (forall_name_ne_iff hclasses fun _ hs => hs).mpr fun b hb hclass => ?_
  obtain ⟨s, hs, rfl⟩ := List.mem_map.mp hb
  rcases FileDescriptorProto.mem_blocks.mp hs with ⟨enum, -, rfl⟩ |
    ⟨root, -, -, ⟨q, -, rfl⟩ | rfl⟩
  · cases hclass
  · exact constName_ne_infra hinfra
  · cases hclass

include haccepted in
/-- Nor in a class body by the classes there. -/
theorem body_ne_generated (hname : name ∈ generatedNames) {outer : String × DescriptorProto}
    (houter : outer ∈ file.allMessages) :
    ∀ s ∈ outer.2.enumType.map (enumStmt outer.1)
      ++ renderClasses M.index outer.1 outer.2.nestedType, s.binding.1 ≠ name := by
  obtain ⟨-, -, husable⟩ := SchemaValidator.validate_ok haccepted
  have hclasses : ∀ b ∈ nestedClasses outer, b.1 ≠ name :=
    class_ne_generated haccepted hname (husable outer houter).enums fun msg hmsg hkeep =>
      nested_mem_forest houter hmsg hkeep
  rw [← classes_bindings M.index, List.forall_mem_map] at hclasses
  exact hclasses

include hvalid hfile haccepted hok

/-- **Statements other than fields** read such a name right exactly when no imported class has it. -/
theorem read_statement_iff {e : Event} (he : e ∈ M.events file)
    (hfield : ∀ field line, e.2 ≠ .field field line) (hname : name ∈ generatedNames)
    (hprovided : M.Provided file name) :
    e.1.read pythonBuiltins name = some (infraObj name) ↔ ¬ ImportsName M.files file name := by
  have hblocks := @blocks_ne_generated M file haccepted name hname hprovided.1
  rcases FileDescriptorProto.event_of_blocks he with ⟨-, before, after, hsplit, hfr⟩ |
    ⟨earlier, root, later, hsplit, heq | ⟨outer, houter, before, after, hbody, hfr⟩⟩
  · have hbefore : ∀ s ∈ before, s.binding.1 ≠ name := fun s hs =>
      hblocks s (by rw [hsplit]; exact List.mem_append_left _ hs)
    rw [hfr]
    exact (read_module hvalid hfile hok hprovided before).trans (and_iff_left hbefore)
  · have hbefore : ∀ s ∈ file.beforeClass M.index earlier root, s.binding.1 ≠ name := fun s hs =>
      hblocks s (by rw [FileDescriptorProto.blocks_split hsplit]; exact List.mem_append_left _ hs)
    rw [heq]
    exact (read_module hvalid hfile hok hprovided _).trans (and_iff_left hbefore)
  · have hmem := FileDescriptorProto.mem_allMessages_of_root hsplit houter
    have hbefore : ∀ s ∈ file.beforeClass M.index earlier root, s.binding.1 ≠ name := fun s hs =>
      hblocks s (by rw [FileDescriptorProto.blocks_split hsplit]; exact List.mem_append_left _ hs)
    have hfront : ∀ s ∈ before, s.binding.1 ≠ name := by
      rcases classBody_split hbody with ⟨back, hback⟩ | ⟨front, -, hfields⟩
      · exact fun s hs => body_ne_generated haccepted hname hmem s
          (by rw [hback]; exact List.mem_append_left _ hs)
      · -- behind the classes stand field lines only
        have hs : e.2 ∈ fieldStmts M.index outer.2.field := by rw [hfields]; simp
        obtain ⟨field, -, hline⟩ := List.mem_filterMap.mp hs
        obtain ⟨line, -, heq⟩ := Option.map_eq_some_iff.mp hline
        exact absurd heq.symm (hfield field line)
    rw [hfr]
    refine (read_body hvalid hfile hok hprovided before).trans ?_
    rw [and_iff_right hfront]
    exact and_iff_left hbefore

omit hvalid hfile haccepted hok in
/-- A module makes enum classes exactly when the file has an enum. -/
theorem hasEnum_iff : file.hasEnum = true ↔
    ∃ fr full enum, (fr, .enumClass full enum) ∈ M.events file := by
  rw [FileDescriptorProto.hasEnum, Bool.or_eq_true, Bool.not_eq_true', List.isEmpty_eq_false_iff,
    List.any_eq_true]
  -- an enum is top-level or nested in a message; a field line and a class are no enum
  constructor
  · rintro (htop | ⟨p, hp, hnested⟩)
    · obtain ⟨enum, henum⟩ := List.exists_mem_of_ne_nil _ htop
      have hmem : enumStmt file.scope enum ∈ file.blocks M.index :=
        FileDescriptorProto.mem_blocks.mpr (.inl ⟨enum, henum, rfl⟩)
      obtain ⟨fr, he⟩ := event_of_block hmem
      exact ⟨fr, _, enum, he⟩
    · rw [Bool.not_eq_true', List.isEmpty_eq_false_iff] at hnested
      obtain ⟨enum, henum⟩ := List.exists_mem_of_ne_nil _ hnested
      obtain ⟨root, hroot, hkeep, hbelow⟩ := mem_forest.mp hp
      obtain ⟨earlier, later, hsplit⟩ :=
        List.append_of_mem (List.mem_filter.mpr ⟨hroot, hkeep⟩)
      have houter : p ∈ root.tree DescriptorProto.isUserFacing file.scope := by
        rw [DescriptorProto.tree_eq, if_pos hkeep, List.mem_cons]
        exact hbelow
      have hmem : enumStmt p.1 enum ∈ classBody M.index p :=
        List.mem_append_left _ (List.mem_append_left _ (List.mem_map_of_mem henum))
      obtain ⟨before, after, hbody⟩ := List.append_of_mem hmem
      exact ⟨_, _, enum, event_of_body hsplit houter hbody⟩
  · rintro ⟨fr, full, enum, he⟩
    rcases FileDescriptorProto.event_of_blocks he with ⟨-, before, after, hsplit, -⟩ |
      ⟨earlier, root, later, hsplit, heq | ⟨outer, houter, before, after, hbody, -⟩⟩
    · have hmem : Stmt.enumClass full enum ∈ file.blocks M.index := by rw [hsplit]; simp
      rcases FileDescriptorProto.mem_blocks.mp hmem with ⟨enum', henum', -⟩ |
        ⟨root, -, -, ⟨q, -, heq⟩ | heq⟩
      · exact .inl (List.ne_nil_of_mem henum')
      · cases heq
      · cases heq
    · cases heq
    · refine .inr ⟨outer, FileDescriptorProto.mem_allMessages_of_root hsplit houter, ?_⟩
      rw [Bool.not_eq_true', List.isEmpty_eq_false_iff]
      have hmem : Stmt.enumClass full enum ∈ classBody M.index outer := by rw [hbody]; simp
      rw [classBody, List.mem_append, List.mem_append, renderClasses_eq] at hmem
      rcases hmem with (hmem | hmem) | hmem
      · obtain ⟨enum', henum', -⟩ := List.mem_map.mp hmem
        exact List.ne_nil_of_mem henum'
      · obtain ⟨msg, -, heq⟩ := List.mem_map.mp hmem
        rw [DescriptorProto.renderClass_eq] at heq
        cases heq
      · obtain ⟨field, -, hline⟩ := List.mem_filterMap.mp hmem
        obtain ⟨line, -, heq⟩ := Option.map_eq_some_iff.mp hline
        cases heq

omit hvalid hfile haccepted hok in
/-- A file that imports something has a message, so that constants and classes are made. -/
theorem exists_message_of_imports (h : ImportsName M.files file name) :
    (∃ fr const full, (fr, .constant const full) ∈ M.events file) ∧
      ∃ fr p, (fr, classStmt M.index p) ∈ M.events file := by
  obtain ⟨d, ⟨-, -, -, -, -, ⟨-, p, hp, -⟩, -⟩, -⟩ := h
  obtain ⟨fr, hevent⟩ := FileDescriptorProto.class_event_of_mem hp (M.header file)
  refine ⟨?_, fr, p, hevent⟩
  obtain ⟨root, hroot, hkeep, -⟩ := mem_forest.mp hp
  have hself : (file.scope ++ "." ++ root.name, root)
      ∈ root.tree DescriptorProto.isUserFacing file.scope := by
    rw [DescriptorProto.tree_eq, if_pos hkeep]
    exact List.mem_cons_self
  obtain ⟨fr', hevent'⟩ := event_of_block (FileDescriptorProto.mem_blocks.mpr
    (.inr ⟨root, hroot, hkeep, .inl ⟨_, hself, rfl⟩⟩))
  exact ⟨fr', _, _, hevent'⟩

/-- **Infrastructure is read right** exactly when nothing shadows it. -/
theorem infra_iff : (∀ e ∈ M.events file, ∀ r ∈ e.2.infraReads e.1,
      r.1.read pythonBuiltins r.2 = some (infraObj r.2)) ↔
    (∀ name ∈ ["bytes", "message", "dataclass", "Message"], ¬ ImportsName M.files file name) ∧
    (file.hasEnum = true → ¬ ImportsName M.files file "IntEnum") ∧
    ∀ place : FieldPlace, place.In file →
      (∀ name ∈ place.field.defaultInfra M.index, place.Free M.files file place.before name) ∧
      ∀ name ∈ place.field.annotInfra M.index,
        place.Free M.files file (place.before ++ [place.field]) name := by
  have hstatement := fun {name} {e} => @read_statement_iff M file hvalid hfile haccepted _ hok name e
  have hbytes : M.Provided file "bytes" := provided_builtin (by decide)
  have hclass : ∀ {name}, name ∈ ["message", "dataclass", "Message"] → M.Provided file name :=
    provided_class
  have hgenerated : ∀ name ∈ ["message", "dataclass", "Message"], name ∈ generatedNames := by decide
  -- the default of a field is read before its own name is bound, the annotation after
  have hplaceRead : ∀ {place : FieldPlace} {line}, place.In file →
      renderField M.index place.field = some line →
      ((∀ name ∈ line.default.infra,
          (place.frame M file place.before).read pythonBuiltins name = some (infraObj name)) ↔
        ∀ name ∈ place.field.defaultInfra M.index, place.Free M.files file place.before name) ∧
      ((∀ name ∈ line.annotInfra, ((place.frame M file place.before).bind
          (line.name, .value)).read pythonBuiltins name = some (infraObj name)) ↔
        ∀ name ∈ place.field.annotInfra M.index,
          place.Free M.files file (place.before ++ [place.field]) name) := by
    intro place line hplace hline
    obtain ⟨after, hfields⟩ := hplace.field
    have huser : place.field ∈ file.userFields :=
      List.mem_flatMap.mpr ⟨_, hplace.mem_allMessages, hplace.mem_field⟩
    obtain ⟨hdefault, hannot⟩ := infra_of_line hvalid hfile
      (FileDescriptorProto.mem_messages hplace.mem_allMessages).1 hplace.mem_field hline
    rw [hdefault, hannot, frame_concat hline]
    refine ⟨forall₂_congr fun name hname => ?_, forall₂_congr fun name hname => ?_⟩
    · exact read_frame hvalid hfile hplace (fun f hf => by rw [hfields]; simp [hf]) hok
        (provided_default huser hname)
    · refine read_frame hvalid hfile hplace (fun f hf => ?_) hok (provided_annot huser hname)
      rw [hfields]
      rcases List.mem_append.mp hf with hf | hf
      · simp [hf]
      · simp [List.mem_singleton.mp hf]
  constructor
  · intro h
    refine ⟨fun name hname himports => ?_, fun henum => ?_, fun place hplace => ?_⟩
    · -- a file with an import refers to a type, so it has a message whose class reads these names
      obtain ⟨⟨fr, const, full, hconstant⟩, fr', p, hclassEvent⟩ :=
        exists_message_of_imports himports
      rcases List.mem_cons.mp hname with rfl | hname
      · exact (hstatement hconstant (by simp) (by decide) hbytes).mp
          (h _ hconstant _ (List.mem_singleton_self _)) himports
      · refine (hstatement hclassEvent (by simp [classStmt]) (hgenerated name hname)
          (hclass hname)).mp (h _ hclassEvent (fr', name) ?_) himports
        simpa [Stmt.infraReads, classStmt] using hname
    · obtain ⟨fr, full, enum, he⟩ := (@hasEnum_iff M file).mp henum
      exact (hstatement he (by simp) (by decide) (provided_intEnum henum)).mp
        (h _ he _ (List.mem_singleton_self _))
    · obtain ⟨line, hline⟩ := exists_line hvalid hfile
        (FileDescriptorProto.mem_messages hplace.mem_allMessages).1 hplace.mem_field
      have hevent := field_event_iff.mpr ⟨place, hplace, rfl, hline, rfl⟩
      have hreads := h _ hevent
      simp only [Stmt.infraReads, List.forall_mem_append, List.forall_mem_map] at hreads
      exact ⟨(hplaceRead hplace hline).1.mp hreads.1, (hplaceRead hplace hline).2.mp hreads.2⟩
  · rintro ⟨hclasses, hintEnum, hfields⟩ ⟨fr, s⟩ he r hr
    cases s with
    | constant const full =>
        cases List.mem_singleton.mp hr
        exact (hstatement he (by simp) (by decide) hbytes).mpr
          (hclasses "bytes" (by decide))
    | enumClass full enum =>
        have henum : file.hasEnum = true := hasEnum_iff.mpr ⟨fr, full, enum, he⟩
        cases List.mem_singleton.mp hr
        exact (hstatement he (by simp) (by decide) (provided_intEnum henum)).mpr
          (hintEnum henum)
    | messageClass full const msg body =>
        obtain ⟨name, hname, rfl⟩ : ∃ name ∈ ["message", "dataclass", "Message"], r = (fr, name) := by
          simpa [Stmt.infraReads] using hr
        exact (hstatement he (by simp) (hgenerated name hname) (hclass hname)).mpr
          (hclasses name (List.mem_cons_of_mem _ hname))
    | field field line =>
        obtain ⟨place, hplace, rfl, hline, rfl⟩ := field_event_iff.mp he
        have hplaces := hfields place hplace
        rcases List.mem_append.mp hr with hr | hr
        · obtain ⟨name, hname, rfl⟩ := List.mem_map.mp hr
          exact (hplaceRead hplace hline).1.mpr hplaces.1 name hname
        · obtain ⟨name, hname, rfl⟩ := List.mem_map.mp hr
          exact (hplaceRead hplace hline).2.mpr hplaces.2 name hname

end Infra

end ModuleSet

end FastProto
