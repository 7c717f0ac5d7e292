import FastProto.Imports
import FastProto.Schema
import FastProto.Lib.Scope

/-! # Generated modules and their execution

A generated module binds what its header imports, then the enums, the descriptor constants and the
message classes of the file, one after the other. `DescriptorProto.renderClass` is the class
statement of a message with its body; `Stmt.events` runs statements and records each one with the
scope it starts in. -/

namespace FastProto

open Lib

/-- What a name of a generated module can be bound to. -/
inductive Obj where
  /-- A builtin of Python. -/
  | builtin (name : String)
  /-- What the header imports from the runtime and the standard library. -/
  | runtime (name : String)
  /-- The class of an enum, by its full name. -/
  | enumClass (full : String)
  /-- The class of a message, by its full name. -/
  | messageClass (full : String)
  /-- The serialized descriptor of a message. -/
  | descriptor (full : String)
  /-- The value a field has in the class body. -/
  | value
  deriving DecidableEq, Repr

/-- The builtins that generated code reads. -/
def pythonBuiltins (name : String) : Option Obj :=
  if name ∈ ["bytes", "list", "dict"] then some (.builtin name) else none

/-! ## Statements -/

/-- A statement of a generated module or class body. -/
inductive Stmt where
  /-- `NAME = bytes.fromhex(...)`. -/
  | constant (name full : String)
  /-- `class E(IntEnum): ...`. -/
  | enumClass (full : String) (enum : EnumDescriptorProto)
  /-- `@message(CONST) @dataclass(slots=True) class M(Message): ...`. -/
  | messageClass (full const : String) (msg : DescriptorProto) (body : List Stmt)
  /-- `name: annotation = default`. -/
  | field (field : FieldDescriptorProto) (line : FieldLine)

/-- The name a statement binds, and to what. -/
def Stmt.binding : Stmt → String × Obj
  | .constant name full => (name, .descriptor full)
  | .enumClass full enum => (enum.name, .enumClass full)
  | .messageClass full _ msg _ => (msg.name, .messageClass full)
  | .field _ line => (line.name, .value)

/-- `_descriptor_const_name`: `Outer.Inner` -> `_OUTER_INNER_DESCRIPTOR`. -/
def descriptorConstName (qualified : String) : String :=
  "_" ++ String.ofList (qualified.toList.map fun c => if c = '.' then '_' else c.toUpper)
    ++ "_DESCRIPTOR"

/-- `_render_enum`, under the full name of the enum. -/
def enumStmt (scope : String) (enum : EnumDescriptorProto) : Stmt :=
  .enumClass (scope ++ "." ++ enum.name) enum

/-- The field lines of a class body. -/
def fieldStmts (index : TypeIndex) (fields : List FieldDescriptorProto) : List Stmt :=
  fields.filterMap fun f => (renderField index f).map (.field f)

mutual

/-- `_render_class`: nested enums and messages first, then the fields. -/
def DescriptorProto.renderClass (index : TypeIndex) (scope : String) : DescriptorProto → Stmt
  | ⟨name, field, nestedType, enumType, options, oneofDecl, others⟩ =>
      .messageClass (scope ++ "." ++ name)
        (descriptorConstName (index.qualified (scope ++ "." ++ name)))
        ⟨name, field, nestedType, enumType, options, oneofDecl, others⟩
        (enumType.map (enumStmt (scope ++ "." ++ name))
          ++ renderClasses index (scope ++ "." ++ name) nestedType ++ fieldStmts index field)

/-- The class statements of the messages that are no map entries. -/
def renderClasses (index : TypeIndex) (scope : String) : List DescriptorProto → List Stmt
  | [] => []
  | msg :: rest =>
      (if msg.isUserFacing then [msg.renderClass index scope] else [])
        ++ renderClasses index scope rest

end

/-- The body of the class of a message. -/
def classBody (index : TypeIndex) (p : String × DescriptorProto) : List Stmt :=
  p.2.enumType.map (enumStmt p.1) ++ renderClasses index p.1 p.2.nestedType
    ++ fieldStmts index p.2.field

/-- `_collect_constants`: the constants of a message and of those nested in it, outermost first. -/
def collectConstants (index : TypeIndex) (scope : String) (msg : DescriptorProto) : List Stmt :=
  (msg.tree DescriptorProto.isUserFacing scope).map fun p =>
    .constant (descriptorConstName (index.qualified p.1)) p.1

namespace FileDescriptorProto

variable (index : TypeIndex) (file : FileDescriptorProto)

/-- `_render_message`: the constants of a message, then its class. -/
def renderMessage (msg : DescriptorProto) : List Stmt :=
  collectConstants index file.scope msg ++ [msg.renderClass index file.scope]

/-- `_file_blocks`. -/
def blocks : List Stmt :=
  file.enumType.map (enumStmt file.scope)
    ++ (file.messageType.filter (·.isUserFacing)).flatMap (file.renderMessage index)

/-- The module after its header: what it imports from the runtime, and the classes of other files in
`imports`. -/
def headerFrame (imports : List (String × Obj)) : Lib.Frame Obj :=
  Lib.Frame.bindAll { locals := [] }
    ((file.runtimeNames index).map (fun name => (name, .runtime name)) ++ imports)

end FileDescriptorProto

/-! ## Execution -/

/-- A statement about to run, and the scope it starts in. -/
abbrev Event := Lib.Frame Obj × Stmt

mutual

/-- The events of a statement: its own, then those of its body. -/
def Stmt.events (fr : Lib.Frame Obj) : Stmt → List Event
  | .messageClass full const msg body =>
      (fr, .messageClass full const msg body) :: eventsOf (fr.enter msg.name) body
  | .constant name full => [(fr, .constant name full)]
  | .enumClass full enum => [(fr, .enumClass full enum)]
  | .field field line => [(fr, .field field line)]

/-- The events of a list of statements, each binding its name for the next ones. -/
def eventsOf (fr : Lib.Frame Obj) : List Stmt → List Event
  | [] => []
  | s :: rest => s.events fr ++ eventsOf (fr.bind s.binding) rest

end

/-- The scope a list of statements leaves. -/
def scopeAfter (fr : Lib.Frame Obj) (stmts : List Stmt) : Lib.Frame Obj :=
  fr.bindAll (stmts.map (·.binding))

/-- The events of two lists of statements, one after the other. -/
theorem eventsOf_append (fr : Lib.Frame Obj) (first second : List Stmt) :
    eventsOf fr (first ++ second) = eventsOf fr first ++ eventsOf (scopeAfter fr first) second := by
  induction first generalizing fr with
  | nil => rfl
  | cons s rest ih =>
      rw [List.cons_append, eventsOf, eventsOf, ih, List.append_assoc]
      rfl

/-- The class statement of a message. -/
theorem DescriptorProto.renderClass_eq (index : TypeIndex) (scope : String)
    (msg : DescriptorProto) : msg.renderClass index scope =
      .messageClass (scope ++ "." ++ msg.name)
        (descriptorConstName (index.qualified (scope ++ "." ++ msg.name))) msg
        (classBody index (scope ++ "." ++ msg.name, msg)) := by
  obtain ⟨name, field, nestedType, enumType, options, oneofDecl, others⟩ := msg
  rw [DescriptorProto.renderClass]
  rfl

/-- The class statements of nested types. -/
theorem renderClasses_eq (index : TypeIndex) (scope : String) (msgs : List DescriptorProto) :
    renderClasses index scope msgs
      = (msgs.filter (·.isUserFacing)).map (·.renderClass index scope) := by
  induction msgs with
  | nil => rfl
  | cons msg rest ih =>
      rw [renderClasses, ih, List.filter_cons]
      split <;> rfl

/-! ## Where the events of a module are -/

/-- The class statement of a message under its full name. -/
def classStmt (index : TypeIndex) (p : String × DescriptorProto) : Stmt :=
  .messageClass p.1 (descriptorConstName (index.qualified p.1)) p.2 (classBody index p)

/-- A statement runs in the scope that the statements before it leave. -/
theorem mem_eventsOf {fr : Lib.Frame Obj} {stmts : List Stmt} {e : Event} :
    e ∈ eventsOf fr stmts ↔
      ∃ before s after, stmts = before ++ s :: after ∧ e ∈ s.events (scopeAfter fr before) := by
  constructor
  · intro h
    induction stmts generalizing fr with
    | nil => cases h
    | cons s rest ih =>
        rw [eventsOf, List.mem_append] at h
        rcases h with h | h
        · exact ⟨[], s, rest, rfl, h⟩
        · obtain ⟨before, s', after, rfl, he⟩ := ih h
          exact ⟨s :: before, s', after, rfl, he⟩
  · rintro ⟨before, s, after, rfl, h⟩
    rw [eventsOf_append, eventsOf]
    exact List.mem_append_right _ (List.mem_append_left _ h)

/-- A statement is its own first event. -/
theorem Stmt.self_mem_events (fr : Lib.Frame Obj) (s : Stmt) : (fr, s) ∈ s.events fr := by
  cases s <;> simp [Stmt.events]

/-- A statement is an event in the scope it starts in. -/
theorem self_mem_eventsOf {fr : Lib.Frame Obj} {before after : List Stmt} {s : Stmt} :
    (scopeAfter fr before, s) ∈ eventsOf fr (before ++ s :: after) :=
  mem_eventsOf.mpr ⟨before, s, after, rfl, s.self_mem_events _⟩

/-- The events of the class of a message: its own, then those of its body. -/
theorem mem_events_classStmt {index : TypeIndex} {fr : Lib.Frame Obj}
    {p : String × DescriptorProto} {e : Event} : e ∈ (classStmt index p).events fr ↔
      e = (fr, classStmt index p) ∨ e ∈ eventsOf (fr.enter p.2.name) (classBody index p) := by
  rw [classStmt, Stmt.events, List.mem_cons]

/-- Whether a statement makes a message class. -/
def Stmt.isClass : Stmt → Bool
  | .messageClass .. => true
  | _ => false

/-- **Statements that make no message class** are their own events. -/
theorem event_of_simple {stmts : List Stmt} (hstmts : ∀ s ∈ stmts, s.isClass = false)
    {fr : Lib.Frame Obj} {e : Event} (h : e ∈ eventsOf fr stmts) :
    e.2.isClass = false ∧
      ∃ before after, stmts = before ++ e.2 :: after ∧ e.1 = scopeAfter fr before := by
  obtain ⟨before, s, after, rfl, hevent⟩ := mem_eventsOf.mp h
  have hs := hstmts s (by simp)
  cases s with
  | messageClass full const msg body => cases hs
  | constant | enumClass | field =>
      cases List.mem_singleton.mp hevent
      exact ⟨rfl, before, after, rfl, rfl⟩

/-- Running one list of statements after another. -/
theorem scopeAfter_append (fr : Lib.Frame Obj) (first second : List Stmt) :
    scopeAfter fr (first ++ second) = scopeAfter (scopeAfter fr first) second := by
  rw [scopeAfter, List.map_append, Lib.Frame.bindAll_append]
  rfl

/-- Class statements of a class body are those of the user-facing nested messages. -/
theorem exists_child_of_mem {index : TypeIndex} {p : String × DescriptorProto}
    {full const : String} {msg : DescriptorProto} {body : List Stmt}
    (h : .messageClass full const msg body ∈ classBody index p) :
    ∃ child ∈ p.2.nestedType, child.isUserFacing = true ∧
      .messageClass full const msg body = classStmt index (p.1 ++ "." ++ child.name, child) := by
  rw [classBody, List.mem_append, List.mem_append, renderClasses_eq] at h
  rcases h with (h | h) | h
  · obtain ⟨enum, -, heq⟩ := List.mem_map.mp h
    cases heq
  · obtain ⟨child, hchild, heq⟩ := List.mem_map.mp h
    obtain ⟨hchild, hkeep⟩ := List.mem_filter.mp hchild
    exact ⟨child, hchild, hkeep, by rw [← heq, DescriptorProto.renderClass_eq, classStmt]⟩
  · obtain ⟨field, -, hline⟩ := List.mem_filterMap.mp h
    obtain ⟨line, -, heq⟩ := Option.map_eq_some_iff.mp hline
    cases heq

/-- Entering a class keeps the names of the module. -/
@[simp] theorem moduleScope_scopeAfter_enter (fr : Lib.Frame Obj) (cls : String)
    (stmts : List Stmt) : (scopeAfter (fr.enter cls) stmts).moduleScope = fr.moduleScope := by
  rw [scopeAfter, Lib.Frame.bindAll_eq]
  rfl

/-- The state of the body of the class of a message before its first statement, within a class of a
module that has the given names. -/
def bodyStart (globals : Scope Obj) (p : String × DescriptorProto) : Lib.Frame Obj :=
  { cls := some p.2.name, locals := [], globals }

/-- **Where a statement of a class runs**: the class statement itself in the scope around it, any
other in the body of a class of the tree, after the statements in front, with the names the module
had when the outermost class began. -/
theorem event_placed {index : TypeIndex} {r : String × DescriptorProto}
    {fr fr' : Lib.Frame Obj} {s : Stmt} (h : (fr', s) ∈ (classStmt index r).events fr) :
    (fr' = fr ∧ s = classStmt index r) ∨
    ∃ outer ∈ r :: forest DescriptorProto.isUserFacing r.1 r.2.nestedType, ∃ before after,
      classBody index outer = before ++ s :: after ∧
        fr' = scopeAfter (bodyStart fr.moduleScope outer) before := by
  rcases mem_events_classStmt.mp h with heq | h
  · cases heq
    exact .inl ⟨rfl, rfl⟩
  · obtain ⟨before, s', after, hbody, h⟩ := mem_eventsOf.mp h
    have hs' : s' ∈ classBody index r := by rw [hbody]; simp
    cases s' with
    | messageClass full const msg body =>
        obtain ⟨child, hchild, hkeep, hstmt⟩ := exists_child_of_mem hs'
        rw [hstmt] at h hbody
        rcases event_placed h with ⟨rfl, rfl⟩ | ⟨outer, houter, before', after', hbody', rfl⟩
        · exact .inr ⟨r, List.mem_cons_self, before, after, hbody, rfl⟩
        · refine .inr ⟨outer, List.mem_cons_of_mem _ ?_, before', after', hbody', ?_⟩
          · rcases List.mem_cons.mp houter with rfl | houter
            · exact mem_forest.mpr ⟨child, hchild, hkeep, .inl rfl⟩
            · exact mem_forest.mpr ⟨child, hchild, hkeep, .inr houter⟩
          · rw [moduleScope_scopeAfter_enter]
    | constant | enumClass | field =>
        cases List.mem_singleton.mp h
        exact .inr ⟨r, List.mem_cons_self, before, after, hbody, rfl⟩
termination_by sizeOf r.2
decreasing_by
  have hlt := List.sizeOf_lt_of_mem hchild
  obtain ⟨_, name, field, nestedType, enumType, options, oneofDecl, others⟩ := r
  rw [DescriptorProto.mk.sizeOf_spec]
  dsimp only at hlt
  omega

/-- The class of a nested message runs within that of its container, in the same module. -/
theorem child_events {index : TypeIndex} {r : String × DescriptorProto} {child : DescriptorProto}
    (hchild : child ∈ r.2.nestedType) (hkeep : child.isUserFacing = true) (fr : Lib.Frame Obj) :
    ∃ fr', fr'.moduleScope = fr.moduleScope ∧
      ∀ e ∈ (classStmt index (r.1 ++ "." ++ child.name, child)).events fr',
        e ∈ (classStmt index r).events fr := by
  have hmem : classStmt index (r.1 ++ "." ++ child.name, child) ∈ classBody index r := by
    rw [classBody, renderClasses_eq]
    refine List.mem_append_left _ (List.mem_append_right _ ?_)
    exact List.mem_map.mpr ⟨child, List.mem_filter.mpr ⟨hchild, hkeep⟩,
      DescriptorProto.renderClass_eq _ _ _⟩
  obtain ⟨before, after, hbody⟩ := List.append_of_mem hmem
  exact ⟨scopeAfter (fr.enter r.2.name) before, moduleScope_scopeAfter_enter _ _ _, fun e he =>
    mem_events_classStmt.mpr (.inr (mem_eventsOf.mpr ⟨before, _, after, hbody, he⟩))⟩

/-- The class of every message of a forest is run. -/
theorem class_event_of_forest {index : TypeIndex} {scope : String} {msgs : List DescriptorProto}
    {p : String × DescriptorProto} (hp : p ∈ forest DescriptorProto.isUserFacing scope msgs) :
    ∃ root ∈ msgs, root.isUserFacing = true ∧ ∀ fr : Lib.Frame Obj, ∃ fr', (fr', classStmt index p)
      ∈ (classStmt index (scope ++ "." ++ root.name, root)).events fr := by
  refine forest_induction (motive := fun scope msgs p => ∃ root ∈ msgs, root.isUserFacing = true ∧
    ∀ fr : Lib.Frame Obj, ∃ fr', (fr', classStmt index p)
      ∈ (classStmt index (scope ++ "." ++ root.name, root)).events fr) ?_ ?_ scope msgs p hp
  · intro scope msgs root hroot hkeep
    exact ⟨root, hroot, hkeep, fun fr => ⟨fr, Stmt.self_mem_events fr _⟩⟩
  · rintro scope msgs root p hroot hkeep - ⟨child, hchild, hkeep', hevents⟩
    refine ⟨root, hroot, hkeep, fun fr => ?_⟩
    obtain ⟨fr', -, hsub⟩ := @child_events index (scope ++ "." ++ root.name, root) _ hchild hkeep' fr
    obtain ⟨fr'', hevent⟩ := hevents fr'
    exact ⟨fr'', hsub _ hevent⟩

/-- **Every statement of a class body is run** in that body, behind the statements in front of it. -/
theorem body_event_of_forest {index : TypeIndex} {scope : String} {msgs : List DescriptorProto}
    {outer : String × DescriptorProto}
    (houter : outer ∈ forest DescriptorProto.isUserFacing scope msgs) {before after : List Stmt}
    {s : Stmt} (hbody : classBody index outer = before ++ s :: after) :
    ∃ root ∈ msgs, root.isUserFacing = true ∧ ∀ fr : Lib.Frame Obj,
      (scopeAfter (bodyStart fr.moduleScope outer) before, s)
        ∈ (classStmt index (scope ++ "." ++ root.name, root)).events fr := by
  refine forest_induction (motive := fun scope msgs outer => classBody index outer
      = before ++ s :: after → ∃ root ∈ msgs, root.isUserFacing = true ∧ ∀ fr : Lib.Frame Obj,
        (scopeAfter (bodyStart fr.moduleScope outer) before, s)
          ∈ (classStmt index (scope ++ "." ++ root.name, root)).events fr)
    ?_ ?_ scope msgs outer houter hbody
  · intro scope msgs root hroot hkeep hbody
    exact ⟨root, hroot, hkeep, fun fr => mem_events_classStmt.mpr
      (.inr (mem_eventsOf.mpr ⟨before, s, after, hbody, s.self_mem_events _⟩))⟩
  · intro scope msgs root outer hroot hkeep _ ih hbody
    obtain ⟨child, hchild, hkeep', hevents⟩ := ih hbody
    refine ⟨root, hroot, hkeep, fun fr => ?_⟩
    obtain ⟨fr', hmodule, hsub⟩ :=
      @child_events index (scope ++ "." ++ root.name, root) _ hchild hkeep' fr
    exact hsub _ (hmodule ▸ hevents fr')

namespace FileDescriptorProto

variable {index : TypeIndex} {file : FileDescriptorProto}

/-- The statements in front of the class of a top-level message: those of the enums and of earlier
messages, then the constants of the message. -/
def beforeClass (index : TypeIndex) (file : FileDescriptorProto) (earlier : List DescriptorProto)
    (root : DescriptorProto) : List Stmt :=
  file.enumType.map (enumStmt file.scope) ++ earlier.flatMap (file.renderMessage index)
    ++ collectConstants index file.scope root

/-- **The statements of a module**: the enums, and for every user-facing message its constants and
its class. -/
theorem mem_blocks {s : Stmt} : s ∈ file.blocks index ↔
    (∃ enum ∈ file.enumType, s = enumStmt file.scope enum) ∨
    ∃ root ∈ file.messageType, root.isUserFacing = true ∧
      ((∃ q ∈ root.tree DescriptorProto.isUserFacing file.scope,
          s = .constant (descriptorConstName (index.qualified q.1)) q.1) ∨
        s = classStmt index (file.scope ++ "." ++ root.name, root)) := by
  simp only [blocks, renderMessage, collectConstants, DescriptorProto.renderClass_eq, List.mem_append,
    List.mem_map, List.mem_flatMap, List.mem_filter, List.mem_singleton, and_assoc, eq_comm (b := s)]
  rfl

/-- The class statement of a top-level message stands behind its constants. -/
theorem blocks_split {earlier later : List DescriptorProto} {root : DescriptorProto}
    (h : file.messageType.filter (·.isUserFacing) = earlier ++ root :: later) :
    file.blocks index = beforeClass index file earlier root
      ++ classStmt index (file.scope ++ "." ++ root.name, root)
        :: later.flatMap (file.renderMessage index) := by
  rw [blocks, h, List.flatMap_append, List.flatMap_cons, renderMessage,
    DescriptorProto.renderClass_eq]
  simp only [beforeClass, classStmt, List.append_assoc, List.cons_append, List.nil_append]

/-- **An event of the messages of a file** is that of a constant, or of a class. -/
theorem event_of_messages {roots : List DescriptorProto} {fr : Lib.Frame Obj} {e : Event}
    (h : e ∈ eventsOf fr (roots.flatMap (file.renderMessage index))) :
    (e.2.isClass = false ∧ ∃ before after,
      roots.flatMap (file.renderMessage index) = before ++ e.2 :: after ∧
        e.1 = scopeAfter fr before) ∨
    ∃ earlier root later, roots = earlier ++ root :: later ∧
      e ∈ (classStmt index (file.scope ++ "." ++ root.name, root)).events
        (scopeAfter fr (earlier.flatMap (file.renderMessage index)
          ++ collectConstants index file.scope root)) := by
  induction roots generalizing fr with
  | nil => cases h
  | cons root rest ih =>
      rw [List.flatMap_cons, eventsOf_append, List.mem_append] at h
      rcases h with h | h
      · rw [renderMessage, eventsOf_append, List.mem_append] at h
        rcases h with h | h
        · have hconstants : ∀ s ∈ collectConstants index file.scope root, s.isClass = false := by
            intro s hs
            obtain ⟨p, -, rfl⟩ := List.mem_map.mp hs
            rfl
          obtain ⟨hsimple, before, after, hsplit, hfr⟩ := event_of_simple hconstants h
          refine .inl ⟨hsimple, before,
            after ++ [root.renderClass index file.scope]
              ++ rest.flatMap (file.renderMessage index), ?_, hfr⟩
          rw [List.flatMap_cons, renderMessage, hsplit]
          simp only [List.append_assoc, List.cons_append]
        · rw [DescriptorProto.renderClass_eq, eventsOf, eventsOf, List.append_nil] at h
          exact .inr ⟨[], root, rest, rfl, h⟩
      · rcases ih h with ⟨hsimple, before, after, hsplit, hfr⟩ |
          ⟨earlier, root', later, rfl, hevent⟩
        · refine .inl ⟨hsimple, file.renderMessage index root ++ before, after, ?_, ?_⟩
          · rw [List.flatMap_cons, hsplit, List.append_assoc]
          · rw [hfr, scopeAfter_append]
        · refine .inr ⟨root :: earlier, root', later, rfl, ?_⟩
          rwa [List.flatMap_cons, List.append_assoc, scopeAfter_append]

/-- **Where the events of a module are**: at its top level, after the statements in front, or in the
body of the class of a message, within a top-level class that starts behind its constants. -/
theorem event_of_blocks {fr : Lib.Frame Obj} {e : Event}
    (h : e ∈ eventsOf fr (file.blocks index)) :
    (e.2.isClass = false ∧ ∃ before after, file.blocks index = before ++ e.2 :: after ∧
      e.1 = scopeAfter fr before) ∨
    ∃ earlier root later, file.messageType.filter (·.isUserFacing) = earlier ++ root :: later ∧
      (e = (scopeAfter fr (beforeClass index file earlier root),
          classStmt index (file.scope ++ "." ++ root.name, root)) ∨
        ∃ outer ∈ root.tree DescriptorProto.isUserFacing file.scope, ∃ before after,
          classBody index outer = before ++ e.2 :: after ∧
            e.1 = scopeAfter (bodyStart
              (scopeAfter fr (beforeClass index file earlier root)).moduleScope outer) before) := by
  rw [blocks, eventsOf_append, List.mem_append] at h
  rcases h with h | h
  · have henums : ∀ s ∈ file.enumType.map (enumStmt file.scope), s.isClass = false := by
      intro s hs
      obtain ⟨enum, -, rfl⟩ := List.mem_map.mp hs
      rfl
    obtain ⟨hsimple, before, after, hsplit, hfr⟩ := event_of_simple henums h
    refine .inl ⟨hsimple, before, after ++
      (file.messageType.filter (·.isUserFacing)).flatMap (file.renderMessage index), ?_, hfr⟩
    rw [blocks, hsplit, List.append_assoc, List.cons_append]
  · rcases event_of_messages h with ⟨hsimple, before, after, hsplit, hfr⟩ |
      ⟨earlier, root, later, hsplit, hevent⟩
    · refine .inl ⟨hsimple, file.enumType.map (enumStmt file.scope) ++ before, after, ?_, ?_⟩
      · rw [blocks, hsplit, List.append_assoc]
      · rw [hfr, scopeAfter_append]
    · refine .inr ⟨earlier, root, later, hsplit, ?_⟩
      rw [← scopeAfter_append, ← List.append_assoc] at hevent
      have hkeep : root.isUserFacing = true := by
        have hroot : root ∈ file.messageType.filter (·.isUserFacing) := by rw [hsplit]; simp
        exact (List.mem_filter.mp hroot).2
      rw [DescriptorProto.tree_eq, if_pos hkeep]
      rcases event_placed hevent with ⟨hfr, hstmt⟩ | houter
      · exact .inl (Prod.ext hfr hstmt)
      · exact .inr houter

/-- The class of every message of a file is run. -/
theorem class_event_of_mem {p : String × DescriptorProto} (hp : p ∈ file.allMessages)
    (fr : Lib.Frame Obj) : ∃ fr', (fr', classStmt index p) ∈ eventsOf fr (file.blocks index) := by
  obtain ⟨root, hroot, hkeep, hevents⟩ := class_event_of_forest hp
  obtain ⟨earlier, later, hsplit⟩ := List.append_of_mem (List.mem_filter.mpr ⟨hroot, hkeep⟩)
  obtain ⟨fr', hfr'⟩ := hevents (scopeAfter fr (beforeClass index file earlier root))
  exact ⟨fr', mem_eventsOf.mpr ⟨_, _, _, blocks_split hsplit, hfr'⟩⟩

end FileDescriptorProto

end FastProto
