import FastProto.TypeResolution
import FastProto.HygienicModules
import FastProto.DescriptorBinding
import FastProto.Classify
import FastProto.LinkSafety
import FastProto.Lib.Rows
import Mathlib.Logic.Equiv.List
import Mathlib.Tactic.DeriveCountable

/-! # Loaded modules as a program

The loaded modules of a `ModuleSet` are a program in the sense of `_ensure_linked`: every class
statement leaves a dataclass with a compiled descriptor, and `_resolve` reads the namespaces of the
modules. `ModuleSet.program` is that program, and `Sound` are the conditions on a schema under which
its classes are what the codec expects. -/

namespace FastProto

open Lib

/-! ## Lines of a class body, in order -/

/-- The field and the line of a field statement. -/
def Stmt.fieldLine? : Stmt → Option (FieldDescriptorProto × FieldLine)
  | .field f line => some (f, line)
  | _ => none

/-- The lines of a body are those of its field statements in order, each where its statement
starts. -/
theorem forall₂_linesOf (fr : Lib.Frame Obj) (stmts : List Stmt) :
    List.Forall₂ (fun s l => l.2 = s.2 ∧ (l.1, .field s.1 s.2) ∈ eventsOf fr stmts)
      (stmts.filterMap Stmt.fieldLine?) (linesOf fr stmts) := by
  induction stmts generalizing fr with
  | nil => exact .nil
  | cons s rest ih =>
      have hrest := (ih (fr.bind s.binding)).imp
        (S := fun s' l => l.2 = s'.2 ∧ (l.1, .field s'.1 s'.2) ∈ eventsOf fr (s :: rest))
        fun s' l h => ⟨h.1, by rw [eventsOf]; exact List.mem_append_right _ h.2⟩
      cases s with
      | field field line =>
          rw [List.filterMap_cons]
          refine .cons ⟨rfl, ?_⟩ hrest
          rw [eventsOf]
          exact List.mem_append_left _ (Stmt.self_mem_events fr _)
      | constant | enumClass | messageClass => exact hrest

/-- The field statements of the class of a message are its rendered fields. -/
theorem fieldLines_classBody (index : TypeIndex) (p : String × DescriptorProto) :
    (classBody index p).filterMap Stmt.fieldLine?
      = p.2.field.filterMap fun f => (renderField index f).map fun line => (f, line) := by
  have henums : (p.2.enumType.map (enumStmt p.1)).filterMap Stmt.fieldLine? = [] := by
    rw [List.filterMap_map]
    exact List.filterMap_eq_nil_iff.mpr fun _ _ => rfl
  have hclasses : (renderClasses index p.1 p.2.nestedType).filterMap Stmt.fieldLine? = [] := by
    rw [renderClasses_eq, List.filterMap_map]
    refine List.filterMap_eq_nil_iff.mpr fun msg _ => ?_
    rw [Function.comp, DescriptorProto.renderClass_eq]
    rfl
  rw [classBody, List.filterMap_append, List.filterMap_append, henums, hclasses, fieldStmts,
    List.filterMap_filterMap]
  refine List.filterMap_congr fun f _ => ?_
  cases renderField index f <;> rfl

mutual

/-- What runs in the body of a class runs within the statement around the class. -/
theorem Stmt.events_of_body {full const : String} {msg : DescriptorProto} {body : List Stmt}
    {fr' : Lib.Frame Obj} {e : Event} (he : e ∈ eventsOf (fr'.enter msg.name) body) :
    ∀ (s : Stmt) (fr : Lib.Frame Obj), (fr', .messageClass full const msg body) ∈ s.events fr →
      e ∈ s.events fr
  | .messageClass full' const' msg' body', fr, h => by
      rw [Stmt.events, List.mem_cons] at h ⊢
      rcases h with heq | h
      · cases heq
        exact .inr he
      · exact .inr (eventsOf_of_body he body' _ h)
  | .constant _ _, _, h => by cases List.mem_singleton.mp h
  | .enumClass _ _, _, h => by cases List.mem_singleton.mp h
  | .field _ _, _, h => by cases List.mem_singleton.mp h

/-- What runs in the body of a class runs among the statements around the class. -/
theorem eventsOf_of_body {full const : String} {msg : DescriptorProto} {body : List Stmt}
    {fr' : Lib.Frame Obj} {e : Event} (he : e ∈ eventsOf (fr'.enter msg.name) body) :
    ∀ (stmts : List Stmt) (fr : Lib.Frame Obj),
      (fr', .messageClass full const msg body) ∈ eventsOf fr stmts → e ∈ eventsOf fr stmts
  | [], _, h => by cases h
  | s :: rest, fr, h => by
      rw [eventsOf, List.mem_append] at h ⊢
      exact h.imp (Stmt.events_of_body he s fr) (eventsOf_of_body he rest _)

end

namespace ModuleSet

variable {M : ModuleSet} {file : FileDescriptorProto} {p : String × DescriptorProto}

/-- Lines that bind distinct names are the annotations. -/
theorem annotations_eq {cls : String} {lines : List (Lib.Frame Obj × FieldLine)}
    (h : (lines.map fun l => mangle (some cls) l.2.name).Nodup) :
    annotations cls lines = lines.map fun l => (mangle (some cls) l.2.name, l) := by
  have hfold : annotations cls lines
      = (lines.map fun l => (mangle (some cls) l.2.name, l)).foldl
          (fun acc a => upsertBy (· == ·) acc a.1 a.2) [] := by
    rw [annotations, List.foldl_map]
  rw [hfold]
  refine foldl_upsert_nodup ?_
  rwa [List.map_map]

/-- **The dataclass of a message** has one entry for each of its fields, in order: the entry of the
line rendered for it, where that line runs. -/
theorem forall₂_dataFields {fr : Lib.Frame Obj} (hevent : (fr, classStmt M.index p) ∈ M.events file)
    (hrender : ∀ f ∈ p.2.field, ∃ line, renderField M.index f = some line)
    (hnames : (p.2.field.map (·.name)).Nodup)
    (hplain : ∀ f ∈ p.2.field, mangle (some p.2.name) f.name = f.name) :
    ∃ fields, (M.classOf file fr p).cls = slottedClass fields ∧
      List.Forall₂ (fun f entry => ∃ fr' line, renderField M.index f = some line ∧
        (fr', .field f line) ∈ M.events file ∧ entry = M.dataField file f.name fr' line)
        p.2.field fields := by
  have hlines := forall₂_linesOf (fr.enter p.2.name) (classBody M.index p)
  rw [fieldLines_classBody] at hlines
  have hrendered := forall₂_of_filterMap (fun f hf =>
    (hrender f hf).elim fun line hline => ⟨(f, line), by rw [hline]; rfl⟩) hlines
  have hline : List.Forall₂ (fun f (l : Lib.Frame Obj × FieldLine) =>
      mangle (some p.2.name) l.2.name = f.name ∧ renderField M.index f = some l.2 ∧
        (l.1, .field f l.2) ∈ M.events file)
      p.2.field (linesOf (fr.enter p.2.name) (classBody M.index p)) := by
    refine ((List.forall₂_and_left _ _).mpr ⟨hplain, hrendered⟩).imp ?_
    rintro f ⟨fr', line⟩ ⟨hplain, s, hs, heq, hbody⟩
    obtain ⟨line', hline', rfl⟩ := Option.map_eq_some_iff.mp hs
    dsimp only at heq
    subst heq
    refine ⟨by rw [renderField_name hline', hplain], hline', ?_⟩
    exact eventsOf_of_body hbody _ _ hevent
  -- the names that the lines bind are those of the fields
  have hbound : p.2.field.map (·.name) = (linesOf (fr.enter p.2.name) (classBody M.index p)).map
      fun l => mangle (some p.2.name) l.2.name := by
    have hnames := hline.imp fun f l (h : _ ∧ _) => h.1.symm
    rw [← List.forall₂_eq_eq_eq, List.forall₂_map_left_iff, List.forall₂_map_right_iff]
    exact hnames
  refine ⟨_, rfl, ?_⟩
  rw [annotations_eq (hbound ▸ hnames), List.map_map, List.forall₂_map_right_iff]
  refine hline.imp ?_
  rintro f ⟨fr', line⟩ ⟨hname, hline, hevent⟩
  exact ⟨fr', line, hline, hevent, by rw [← hname]; rfl⟩

end ModuleSet

/-! ## The program -/

/-- Text is countable. -/
instance countable_string : Countable String := by
  have hchar : Function.Injective Char.toNat := fun c c' h => Char.toNat_inj.mp h
  have htext : Function.Injective fun s : String => s.toList.map Char.toNat := fun s s' h =>
    String.ext (List.map_injective_iff.mpr hchar h)
  exact htext.countable

deriving instance Countable for Obj
deriving instance Countable for PyObject

/-- **The identities of objects**: what Python tells the objects apart by that names lead to. The
class generated for a type has that of the type. -/
structure ObjectIds (M : ModuleSet) where
  id : PyObject → ClassId
  /-- The object that has an identity. -/
  object : ClassId → Option PyObject
  object_id : ∀ found, object (id found) = some found
  classes : ∀ full ∈ M.index.map Prod.fst, id (.obj (M.classFor full)) = M.idOf full

namespace ModuleSet

/-- Different types have different classes. -/
theorem classFor_inj {M : ModuleSet} {full full' : String}
    (h : M.classFor full = M.classFor full') : full = full' := by
  unfold classFor at h
  split at h <;> split at h <;> cases h <;> rfl

open Classical in
/-- **The identities of objects**: those of generated classes are their places in the index, and any
others come after them. -/
theorem nonempty_objectIds (M : ModuleSet) : Nonempty (ObjectIds M) := by
  obtain ⟨code, hcode⟩ := exists_injective_nat PyObject
  let IsClass (found : PyObject) (full : String) : Prop :=
    full ∈ M.index.map Prod.fst ∧ found = .obj (M.classFor full)
  let id (found : PyObject) : ClassId :=
    if h : ∃ full, IsClass found full then M.idOf h.choose else M.index.length + code found
  have hclass : ∀ found full, IsClass found full → id found = M.idOf full := by
    intro found full h
    have hexists : ∃ full, IsClass found full := ⟨full, h⟩
    have hsame : hexists.choose = full :=
      classFor_inj (PyObject.obj.inj (hexists.choose_spec.2.symm.trans h.2))
    show dite _ _ _ = _
    rw [dif_pos hexists, hsame]
  have hother : ∀ found, (∀ full, ¬ IsClass found full) → id found = M.index.length + code found :=
    fun found h => dif_neg (not_exists.mpr h)
  have hlt : ∀ {found full}, IsClass found full → id found < M.index.length := by
    intro found full h
    rw [hclass found full h, idOf, ← List.length_map]
    exact List.idxOf_lt_length_of_mem h.1
  have hinj : Function.Injective id := by
    intro found found' h
    by_cases hfound : ∃ full, IsClass found full
    · obtain ⟨full, hfull⟩ := hfound
      by_cases hfound' : ∃ full, IsClass found' full
      · obtain ⟨full', hfull'⟩ := hfound'
        rw [hclass _ _ hfull, hclass _ _ hfull'] at h
        rw [hfull.2, hfull'.2, (idOf_inj hfull.1).mp h]
      · have hbefore := hlt hfull
        rw [h, hother _ (not_exists.mp hfound')] at hbefore
        exact absurd hbefore (Nat.not_lt.mpr (Nat.le_add_right _ _))
    · by_cases hfound' : ∃ full, IsClass found' full
      · obtain ⟨full', hfull'⟩ := hfound'
        have hbefore := hlt hfull'
        rw [← h, hother _ (not_exists.mp hfound)] at hbefore
        exact absurd hbefore (Nat.not_lt.mpr (Nat.le_add_right _ _))
      · rw [hother _ (not_exists.mp hfound), hother _ (not_exists.mp hfound')] at h
        exact hcode (Nat.add_left_cancel h)
  exact ⟨{
    id
    object := Function.partialInv id
    object_id := fun _ => Function.partialInv_left hinj _
    classes := fun full hfull => hclass _ full ⟨hfull, rfl⟩ }⟩

variable (M : ModuleSet) (py : PythonNames) (ids : ObjectIds M)

/-- What `@message` makes of the constant it is given: the compiled descriptor. -/
def compiledFrom (bound : Option Obj) : Option MessageDescriptor :=
  match bound with
  | some (.descriptor full) =>
      ((messagesOf M.files).lookup full).bind fun msg => (parseMessage msg.bytes).toOption
  | _ => none

/-- The compiled descriptors of the classes of a module. -/
def moduleDescriptors (file : FileDescriptorProto) : List (ClassId × MessageDescriptor) :=
  (M.events file).filterMap fun e =>
    match e with
    | (fr, .messageClass full const _ _) =>
        (M.compiledFrom (fr.read pythonBuiltins const)).map fun inner => (M.idOf full, inner)
    | _ => none

/-- The enum classes of the loaded modules. -/
def enumClasses : List (ClassId × EnumClass) :=
  (enumsOf M.loaded).map fun e => (M.idOf e.1, { values := M.members e.1 })

/-- **A class of the loaded modules**: a message class keeps its descriptor under its own identity. -/
def pyClass (id : ClassId) : PyClass :=
  match (M.loaded.flatMap M.moduleClasses).lookup id with
  | some cls => { cls.cls with fastproto := some id }
  | none => { enum := M.enumClasses.lookup id }

/-- The module that a class was made in. -/
def moduleOf (id : ClassId) : Option FileDescriptorProto :=
  M.loaded.find? fun file => ((M.moduleClasses file).map Prod.fst).contains id

/-- **The loaded modules as a program**: what `_ensure_linked` reads of the classes, their
descriptors and the namespaces of their modules. -/
def program : Program where
  cls := M.pyClass
  inner id := ((M.loaded.flatMap M.moduleDescriptors).lookup id).getD ⟨"", [], []⟩
  moduleVars id :=
    match M.moduleOf id with
    | some file => (M.moduleVars py file).map fun b => (b.1, ids.id b.2)
    | none => []
  getattr id name := ((ids.object id).bind fun found => M.getattr py found name).map ids.id

/-- The message classes of the loaded modules, each with its descriptor. -/
def MessageClass (cls : ClassId) (desc : DescId) : Prop :=
  desc = cls ∧ ∃ file ∈ M.loaded, ∃ p ∈ file.allMessages, cls = M.idOf p.1

/-- The descriptors when every class is linked. -/
def linkedDescriptors (id : DescId) : Descriptor :=
  match (M.program py ids).linkOwn id ((M.program py ids).compiled id) with
  | .ok (desc, _) => desc
  | .error _ => (M.program py ids).compiled id

/-- **The world of the loaded modules** when every class is linked. -/
def linkedWorld : World := (M.program py ids).world (M.linkedDescriptors py ids)

variable {M py ids} {file file' : FileDescriptorProto} {p p' : String × DescriptorProto}

/-! ## The classes of the program -/

/-- Classes of different messages have different identities. -/
theorem loaded_unique (hvalid : ProtocValid M.files) (hloaded : M.Loaded) (hfile : file ∈ M.loaded)
    (hfile' : file' ∈ M.loaded) (hp : p ∈ file.allMessages) (hp' : p' ∈ file'.allMessages)
    (h : M.idOf p.1 = M.idOf p'.1) : file = file' ∧ p = p' := by
  have hmem := (FileDescriptorProto.mem_messages hp).1
  have hmem' := (FileDescriptorProto.mem_messages hp').1
  have hname : p.1 = p'.1 := (idOf_inj (mem_index_of_loaded hloaded hfile hp)).mp h
  have hindex : ∀ {file : FileDescriptorProto} {p : String × DescriptorProto}, p ∈ file.messages →
      p.1 ∈ file.index.map Prod.fst := fun hp =>
    (names_sublist_index _).subset (List.mem_append_right _ (List.mem_map_of_mem hp))
  refine ⟨file_unique hvalid (hloaded.files file hfile) (hloaded.files file' hfile') (hindex hmem)
    (hname ▸ hindex hmem'), Prod.ext hname ?_⟩
  exact hvalid.message_unique (hloaded.files file hfile) (hloaded.files file' hfile') hmem hmem' hname

/-- The class statement that makes the class of a message is the one rendered for it. -/
theorem classStmt_unique (hvalid : ProtocValid M.files) (hloaded : M.Loaded) (hfile : file ∈ M.loaded)
    (hfile' : file' ∈ M.loaded) (hp : p ∈ file.allMessages) {fr : Lib.Frame Obj}
    {full const : String} {msg : DescriptorProto} {body : List Stmt}
    (h : (fr, .messageClass full const msg body) ∈ M.events file') (hid : M.idOf full = M.idOf p.1) :
    file' = file ∧ .messageClass full const msg body = classStmt M.index p := by
  obtain ⟨p', hp', hstmt⟩ := stmt_of_class_event h
  have hfull : full = p'.1 := by
    cases hstmt
    rfl
  subst hfull
  obtain ⟨hfile, rfl⟩ := loaded_unique hvalid hloaded hfile hfile' hp hp' hid.symm
  exact ⟨hfile.symm, hstmt⟩

/-- **The class of a message** is the one its class statement makes. -/
theorem exists_pyClass (hvalid : ProtocValid M.files) (hloaded : M.Loaded) (hfile : file ∈ M.loaded)
    (hp : p ∈ file.allMessages) : ∃ fr, (fr, classStmt M.index p) ∈ M.events file ∧
      M.pyClass (M.idOf p.1)
        = { (M.classOf file fr p).cls with fastproto := some (M.idOf p.1) } := by
  obtain ⟨fr, hevent⟩ := FileDescriptorProto.class_event_of_mem hp (M.header file)
  have hmem : (M.idOf p.1, M.classOf file fr p) ∈ M.loaded.flatMap M.moduleClasses :=
    List.mem_flatMap.mpr ⟨file, hfile, List.mem_filterMap.mpr ⟨_, hevent, rfl⟩⟩
  cases hfound : (M.loaded.flatMap M.moduleClasses).lookup (M.idOf p.1) with
  | none => exact absurd (List.mem_map_of_mem hmem) (lookup_eq_none_iff_not_mem.mp hfound)
  | some cls =>
      obtain ⟨file', hfile', hcls⟩ := List.mem_flatMap.mp (mem_of_lookup hfound)
      obtain ⟨⟨fr', s⟩, he, hsome⟩ := List.mem_filterMap.mp hcls
      cases s with
      | messageClass full const msg body =>
          obtain ⟨hid, rfl⟩ := Prod.mk.inj (Option.some.inj hsome)
          obtain ⟨rfl, hstmt⟩ := classStmt_unique hvalid hloaded hfile hfile' hp he hid
          rw [hstmt] at he
          cases hstmt
          exact ⟨fr', he, by rw [pyClass, hfound]; rfl⟩
      | constant | enumClass | field => cases hsome

/-- The module of the class of a message. -/
theorem moduleOf_eq (hvalid : ProtocValid M.files) (hloaded : M.Loaded) (hfile : file ∈ M.loaded)
    (hp : p ∈ file.allMessages) : M.moduleOf (M.idOf p.1) = some file := by
  obtain ⟨fr, hevent⟩ := FileDescriptorProto.class_event_of_mem hp (M.header file)
  have hcls : (M.idOf p.1, M.classOf file fr p) ∈ M.moduleClasses file :=
    List.mem_filterMap.mpr ⟨_, hevent, rfl⟩
  have hmem : M.idOf p.1 ∈ (M.moduleClasses file).map Prod.fst := List.mem_map_of_mem hcls
  cases hfound : M.moduleOf (M.idOf p.1) with
  | none =>
      have hfree := List.find?_eq_none.mp hfound file hfile
      rw [List.contains_iff_mem] at hfree
      exact absurd hmem hfree
  | some file' =>
      have hfile' := List.mem_of_find?_eq_some hfound
      have hhas := List.find?_some hfound
      rw [List.contains_iff_mem] at hhas
      obtain ⟨⟨id, cls⟩, hcls, hid⟩ := List.mem_map.mp hhas
      obtain ⟨p', hp', -, hid', -⟩ := exists_of_mem_moduleClasses hcls
      dsimp only at hid
      rw [(loaded_unique hvalid hloaded hfile hfile' hp hp' (hid.symm.trans hid')).1]

/-- **The compiled descriptor of a class** is that of its message, when the class statement reads
its own constant. -/
theorem inner_eq (hvalid : ProtocValid M.files) (hloaded : M.Loaded) (hfile : file ∈ M.loaded)
    (hp : p ∈ file.allMessages) (hbound : ¬ Overwritten M.index file p ∧ ¬ Hidden M.index file p) :
    (M.program py ids).inner (M.idOf p.1) = p.2.compiled := by
  have hfiles := hloaded.files file hfile
  have hmessage := (FileDescriptorProto.mem_messages hp).1
  have hcompiled : ∀ {fr : Lib.Frame Obj}, (fr, classStmt M.index p) ∈ M.events file →
      M.compiledFrom (fr.read pythonBuiltins (descriptorConstName (M.index.qualified p.1)))
        = some p.2.compiled := by
    intro fr hevent
    have hread := (read_constName hvalid hfiles hevent).mpr hbound
    have hsize := (hvalid.message hfiles hmessage).size
    rw [show descriptorConstName (M.index.qualified p.1) = constName M.index p.1 from rfl, hread,
      compiledFrom, hvalid.lookup_messagesOf (List.mem_flatMap.mpr ⟨file, hfiles, hmessage⟩),
      Option.bind_some, p.2.parseMessage_bytes (by omega)]
    rfl
  obtain ⟨fr, hevent⟩ := FileDescriptorProto.class_event_of_mem hp (M.header file)
  have hmem : (M.idOf p.1, p.2.compiled) ∈ M.loaded.flatMap M.moduleDescriptors :=
    List.mem_flatMap.mpr ⟨file, hfile, List.mem_filterMap.mpr
      ⟨(fr, classStmt M.index p), hevent, by rw [classStmt]; dsimp only; rw [hcompiled hevent]; rfl⟩⟩
  cases hfound : (M.loaded.flatMap M.moduleDescriptors).lookup (M.idOf p.1) with
  | none => exact absurd (List.mem_map_of_mem hmem) (lookup_eq_none_iff_not_mem.mp hfound)
  | some inner =>
      obtain ⟨file', hfile', hinner⟩ := List.mem_flatMap.mp (mem_of_lookup hfound)
      obtain ⟨⟨fr', s⟩, he, hsome⟩ := List.mem_filterMap.mp hinner
      cases s with
      | messageClass full const msg body =>
          obtain ⟨inner', hinner', heq⟩ := Option.map_eq_some_iff.mp hsome
          obtain ⟨hid, rfl⟩ := Prod.mk.inj heq
          obtain ⟨rfl, hstmt⟩ := classStmt_unique hvalid hloaded hfile hfile' hp he hid
          rw [hstmt] at he
          cases hstmt
          rw [hcompiled he] at hinner'
          cases hinner'
          show ((M.loaded.flatMap M.moduleDescriptors).lookup (M.idOf p.1)).getD _ = _
          rw [hfound]
          rfl
      | constant | enumClass | field => cases hsome

end ModuleSet

/-! ## Resolving by identity -/

section Identity

variable {α β : Type} {attr : α → String → Option α} {attr' : β → String → Option β} {f : α → β}

/-- A chain leads to the identity of what it leads to. -/
theorem chainAt_map (h : ∀ found name, attr' (f found) name = (attr found name).map f)
    (vars : List (String × α)) (parts : List String) :
    chainAt attr' (vars.map fun b => (b.1, f b.2)) parts = (chainAt attr vars parts).map f := by
  have hattrs : ∀ (names : List String) (found : α),
      names.foldlM attr' (f found) = (names.foldlM attr found).map f := by
    intro names
    induction names with
    | nil => exact fun _ => rfl
    | cons name names ih =>
        intro found
        rw [List.foldlM_cons, List.foldlM_cons, h]
        cases attr found name with
        | none => rfl
        | some found' => exact ih found'
  cases parts with
  | nil => rfl
  | cons part attrs =>
      rw [chainAt, chainAt, lookup_map_snd]
      cases vars.lookup part with
      | none => rfl
      | some found => exact hattrs attrs found

/-- **Resolving by identity** finds the identity of the object that the name leads to. -/
theorem resolve_map (h : ∀ found name, attr' (f found) name = (attr found name).map f)
    {vars : List (String × α)} {name : String} {found : α}
    (hfound : resolve attr vars name = .ok found) :
    resolve attr' (vars.map fun b => (b.1, f b.2)) name = .ok (f found) := by
  obtain ⟨start, hchain, hearlier⟩ := resolve_eq_ok.mp hfound
  refine resolve_eq_ok.mpr ⟨start, ?_, fun earlier hlt => ?_⟩
  · rw [chainAt_map h, hchain]
    rfl
  · rw [chainAt_map h, hearlier earlier hlt]
    rfl

end Identity

/-- A compiled field has the number and the name of the field. -/
theorem compile_keeps (field : FieldDescriptorProto) (entries : MapEntries) (msgName : String) :
    (field.compile entries msgName).number = field.number ∧
      (field.compile entries msgName).name = field.name := by
  unfold FieldDescriptorProto.compile
  split <;> exact ⟨rfl, rfl⟩

/-- The compiled fields have the numbers and names of the fields. -/
theorem compiled_fields (proto : DescriptorProto) :
    proto.compiled.fields.map (·.number) = proto.field.map (·.number) ∧
      proto.compiled.fields.map (·.name) = proto.field.map (·.name) := by
  constructor <;> rw [DescriptorProto.compiled, List.map_map] <;>
    refine List.map_congr_left fun field _ => ?_
  · exact (clampOneof_keeps _ _).1.trans (compile_keeps _ _ _).1
  · exact (clampOneof_keeps _ _).2.1.trans (compile_keeps _ _ _).2

/-- What `protoc` checks of field numbers: in a message they are distinct, and in range. -/
def ValidNumbers (files : List FileDescriptorProto) : Prop :=
  ∀ p ∈ messagesOf files, (p.2.field.map (·.number)).Nodup ∧
    ∀ field ∈ p.2.field, ValidNumber field.number

namespace ModuleSet

variable {M : ModuleSet} {py : PythonNames} {ids : ObjectIds M} {file other : FileDescriptorProto}
  {p : String × DescriptorProto}

/-- **A sound module**: every class statement reads its own constant, every enum default the enum of
its field, every reference resolves to the class of its type, every field is declared and compiled
alike, under one name, and the zero of every enum is a member of its class. -/
structure Sound (M : ModuleSet) (py : PythonNames) (file : FileDescriptorProto) : Prop where
  bound : ∀ p ∈ file.allMessages, ¬ Overwritten M.index file p ∧ ¬ Hidden M.index file p
  unshadowed : Unshadowed M.files file
  resolvable : ∀ p ∈ file.allMessages, ∀ reference ∈ p.2.compiled.refFields,
    M.Resolvable py file reference.2
  alike : ∀ p ∈ file.allMessages, ∀ field ∈ p.2.field, ¬ Swallowed p field ∧ ¬ NativeEnum field
  names : ∀ p ∈ file.allMessages, ∀ field ∈ p.2.field, mangle (some p.2.name) field.name = field.name
  zeros : ∀ e ∈ file.enums, 0 ∈ M.members e.1

/-- What a module sees is in a loaded module. -/
theorem loaded_of_visible (hvalid : ProtocValid M.files) (hloaded : M.Loaded) (hfile : file ∈ M.loaded)
    (hother : other ∈ M.files) {top : String}
    (h : other = file ∨ External M.files file ⟨other.name, top⟩) : other ∈ M.loaded := by
  rcases h with rfl | hexternal
  · exact hfile
  · obtain ⟨imported, himported, hall⟩ := hloaded.imports file hfile
    have hmem := (mem_externalImports hvalid.wellNamed (hloaded.files file hfile) himported).mpr
      hexternal
    obtain ⟨owner, howner, hname⟩ := hall _ hmem
    rwa [← List.inj_on_of_nodup_map hvalid.fileNames (hloaded.files owner howner) hother hname]

/-- The identities of attributes are those of the attributes. -/
theorem getattr_program (found : PyObject) (name : String) :
    (M.program py ids).getattr (ids.id found) name = (M.getattr py found name).map ids.id := by
  show ((ids.object (ids.id found)).bind fun found => M.getattr py found name).map ids.id = _
  rw [ids.object_id, Option.bind_some]

/-- The namespace that the references of a class are resolved in is that of its module. -/
theorem moduleVars_program (hvalid : ProtocValid M.files) (hloaded : M.Loaded)
    (hfile : file ∈ M.loaded) (hp : p ∈ file.allMessages) :
    (M.program py ids).moduleVars (M.idOf p.1)
      = (M.moduleVars py file).map fun b => (b.1, ids.id b.2) := by
  unfold program
  dsimp only
  rw [moduleOf_eq hvalid hloaded hfile hp]

/-- The class for a type that has one. -/
theorem classFor_id {full : String} (h : Generated M.files full) :
    ids.id (.obj (M.classFor full)) = M.idOf full := by
  refine ids.classes full ?_
  rcases h with henum | ⟨q, hq, rfl, -⟩
  · obtain ⟨e, he, rfl⟩ := List.mem_map.mp henum
    obtain ⟨file, hfile, he⟩ := List.mem_flatMap.mp he
    obtain ⟨info, hinfo, -⟩ := enum_mem_build hfile he
    exact List.mem_map_of_mem hinfo
  · obtain ⟨file, hfile, hq⟩ := List.mem_flatMap.mp hq
    exact List.mem_map_of_mem (f := Prod.fst) (TypeIndex.message_mem_build hfile hq)

/-- **The references of a class of a sound module** are resolved to the classes of their types. -/
theorem resolved_program (hvalid : ProtocValid M.files) (hnumbers : ValidNumbers M.files)
    (hloaded : M.Loaded) (hfile : file ∈ M.loaded) (hsound : M.Sound py file)
    (hp : p ∈ file.allMessages) :
    (M.program py ids).resolved (M.idOf p.1) p.2.compiled.refFields
      = .ok (p.2.compiled.refFields.map fun r => (r.1, M.idOf ("." ++ r.2))) := by
  have hfiles := hloaded.files file hfile
  have hmessage := (FileDescriptorProto.mem_messages hp).1
  obtain ⟨imported, himported, -⟩ := hloaded.imports file hfile
  refine (Program.resolved_eq_ok (nodup_refFields ?_)).mpr ?_
  · rw [(compiled_fields p.2).1]
    exact (hnumbers p (List.mem_flatMap.mpr ⟨file, hfiles, hmessage⟩)).1
  · rw [List.forall₂_map_right_iff, List.forall₂_same]
    intro reference hreference
    refine ⟨rfl, ?_⟩
    have hresolve := (resolve_refField_iff py hvalid hfiles himported hmessage hreference).mpr
      (hsound.resolvable p hp reference hreference)
    rw [moduleVars_program hvalid hloaded hfile hp,
      ← classFor_id (generated_of_refField hvalid hfiles hmessage hreference)]
    exact resolve_map getattr_program hresolve

end ModuleSet

end FastProto
