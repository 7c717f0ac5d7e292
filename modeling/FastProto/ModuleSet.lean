import FastProto.DictConversion
import FastProto.Validate
import FastProto.Parse

/-! # Sets of generated modules

A `ModuleSet` is the files of a request with those whose generated module a Python process has
loaded. A module runs its statements in order; an annotation that is not quoted is evaluated where it
stands, a quoted one by `get_type_hints` in the finished module, where `from_dict` adds the name
`Descriptor`. `ModuleSet.world` is what dict conversion reads of the resulting classes. -/

namespace FastProto

open Lib

/-- Generated modules: the files of the request, and those whose module is loaded. -/
structure ModuleSet where
  files : List FileDescriptorProto
  loaded : List FileDescriptorProto

/-! ## Members of an enum class -/

/-- `enum._is_private`: a name that the enum class keeps as a plain attribute. -/
def isPrivateMember (cls name : String) : Bool :=
  beginsWith ("_" ++ cls ++ "__") name && decide (cls.length + 3 < name.length)
    && !endsIn "__" name

namespace EnumDescriptorProto

variable (enum : EnumDescriptorProto)

/-- The name of a value in the body of the enum class. -/
def bodyName (value : EnumValueDescriptorProto) : String := mangle (some enum.name) value.name

/-- The values that become members. -/
def memberValues : List EnumValueDescriptorProto :=
  enum.value.filter fun value => !isPrivateMember enum.name (enum.bodyName value)

/-- Whether Python's `enum` accepts the body: members have distinct names, none a `_sunder_`. -/
def BodyRuns : Prop :=
  (enum.memberValues.map enum.bodyName).Nodup ∧
    ∀ value ∈ enum.memberValues, isReservedEnumMember (enum.bodyName value) = false

end EnumDescriptorProto

/-! ## Modules -/

/-- The lines of a class body, each with the scope it starts in. -/
def linesOf (fr : Lib.Frame Obj) : List Stmt → List (Lib.Frame Obj × FieldLine)
  | [] => []
  | s :: rest =>
      (match s with
        | .field _ line => [(fr, line)]
        | _ => []) ++ linesOf (fr.bind s.binding) rest

/-- The attributes of `Message` that instances and classes inherit. -/
def messageAttributes : List String :=
  ["to_bytes", "from_bytes", "which_oneof", "to_dict", "from_dict", unknownSlot]

/-- The attributes of a `bytes` object. -/
def bytesAttributes : List String :=
  ["capitalize", "center", "count", "decode", "endswith", "expandtabs", "find", "fromhex", "hex",
    "index", "isalnum", "isalpha", "isascii", "isdigit", "islower", "isspace", "istitle", "isupper",
    "join", "ljust", "lower", "lstrip", "maketrans", "partition", "removeprefix", "removesuffix",
    "replace", "rfind", "rindex", "rjust", "rpartition", "rsplit", "rstrip", "split", "splitlines",
    "startswith", "strip", "swapcase", "title", "translate", "upper", "zfill"]

/-- The attributes of the class `Descriptor` of the native core. -/
def coreAttributes : List String :=
  ["name", "is_linked", "field_names", "collection_fields", "ref_fields", "oneofs", "link", "encode",
    "decode"]

namespace ModuleSet

variable (M : ModuleSet)

/-- The type index of the request. -/
def index : TypeIndex := TypeIndex.build M.files

/-- What a module of a file exports under the name of one of its types. -/
def exported (file : FileDescriptorProto) (top : String) : Option Obj :=
  (scopeAfter { locals := [] } (file.blocks M.index)).locals.lookup top

/-- The classes that the header of a module imports from other modules. -/
def imports (file : FileDescriptorProto) : List (String × Obj) :=
  match file.externalImports M.index with
  | .error _ => []
  | .ok imported =>
      imported.filterMap fun (top, name) =>
        ((M.files.find? fun other => other.name == name).bind fun other => M.exported other top).map
          fun obj => (top, obj)

/-- A module after its header. -/
def header (file : FileDescriptorProto) : Lib.Frame Obj := file.headerFrame M.index (M.imports file)

/-- The execution of a module after its header. -/
def events (file : FileDescriptorProto) : List Event :=
  eventsOf (M.header file) (file.blocks M.index)

/-- The finished module. -/
def moduleScope (file : FileDescriptorProto) : Lib.Frame Obj :=
  scopeAfter (M.header file) (file.blocks M.index)

/-- The names bound in the body of the class of a message. -/
def classScope (p : String × DescriptorProto) : Scope Obj :=
  (scopeAfter { cls := some p.2.name, locals := [] } (classBody M.index p)).locals

/-! ## Annotations -/

/-- Attributes of the objects that the paths of a generated module lead through. -/
def attr : Denoted → String → Option Denoted
  | .obj (.messageClass full), name =>
      match ((messagesOf M.files).lookup full).bind fun msg =>
        (M.classScope (full, msg)).lookup name with
      | some .value => some .attribute
      | some obj => some (.obj obj)
      | none => if name ∈ messageAttributes then some .attribute else none
  | .obj (.descriptor _), name => if name ∈ bytesAttributes then some .attribute else none
  | .coreDescriptor, name => if name ∈ coreAttributes then some .attribute else none
  | _, _ => none

/-- Where an annotation that is not quoted is evaluated. -/
def eager (fr : Lib.Frame Obj) : Evaluator where
  read name := (fr.read pythonBuiltins name).map .obj
  attr := M.attr

/-- Where `get_type_hints` evaluates the quoted annotations of a module. -/
def quoted (file : FileDescriptorProto) : Evaluator where
  read name :=
    if name = "Descriptor" then some .coreDescriptor
    else ((M.moduleScope file).read pythonBuiltins name).map .obj
  attr := M.attr

/-- Where the lambdas of a class are evaluated, once the module is finished: Python rewrites their
names and attributes as it does in the class body. -/
def deferred (file : FileDescriptorProto) (cls : Option String) : Evaluator where
  read name := ((M.moduleScope file).read pythonBuiltins (mangle cls name)).map .obj
  attr denoted name := M.attr denoted (mangle cls name)

/-- Where the annotation of a line is evaluated: the default of the line is bound before. -/
def lineEnv (file : FileDescriptorProto) (fr : Lib.Frame Obj) (line : FieldLine) : Evaluator :=
  if line.quoted then M.quoted file else M.eager (fr.bind (line.name, .value))

/-! ## Classes -/

/-- The identity of the class generated for a type. -/
def idOf (full : String) : ClassId := (M.index.map Prod.fst).idxOf full

/-- The values of the members of an enum class. -/
def members (full : String) : List Int :=
  match (enumsOf M.files).lookup full with
  | some enum => enum.memberValues.map (·.number.toInt)
  | none => []

/-- The zero of the enum class that a path leads to. -/
def enumZero (env : Evaluator) (qualified : String) : PyVal :=
  match env.path qualified with
  | .ok (.obj (.enumClass full)) => .member (M.idOf full) 0
  | _ => .other

/-- What calling an object as a factory returns: the classes of messages can be called without
arguments, those of enums and the values of fields cannot. -/
def callFactory : Obj → PyResult PyVal
  | .messageClass _ => .ok .other
  | _ => .error (.typeError "bad default factory")

/-- The factory that a name denotes in a class body. -/
def factory (fr : Lib.Frame Obj) (name : String) : Factory :=
  match fr.read pythonBuiltins name with
  | some (.builtin "list") => .list
  | some (.builtin "dict") => .dict
  | some obj => .other (callFactory obj)
  | none => .other (.error (.lookupError ("name " ++ name ++ " is not defined")))

/-- The dataclass entry of a line. -/
def dataField (file : FileDescriptorProto) (name : String) (fr : Lib.Frame Obj) (line : FieldLine) :
    DataField :=
  match line.default with
  | .pyNone => { name, default := some .pyNone }
  | .literal s => { name, default := some (scalarDefault s) }
  | .enumZero qualified => { name, default := some (M.enumZero (M.eager fr) qualified) }
  | .listFactory => { name, defaultFactory := some (factory fr "list") }
  | .dictFactory => { name, defaultFactory := some (factory fr "dict") }
  | .enumFactory qualified =>
      { name
        defaultFactory := some (.other (.ok (M.enumZero (M.deferred file fr.cls) qualified))) }

/-- `__annotations__`: the lines of a class by the names they bind. -/
def annotations (cls : String) (lines : List (Lib.Frame Obj × FieldLine)) :
    List (String × Lib.Frame Obj × FieldLine) :=
  lines.foldl (fun acc l => upsertBy (· == ·) acc (mangle (some cls) l.2.name) l) []

/-- The field names of the descriptor a class is bound to. -/
def validNames (bound : Option Obj) : List String :=
  match bound with
  | some (.descriptor full) =>
      match (messagesOf M.files).lookup full with
      | some msg =>
          match parseMessage msg.bytes with
          | .ok desc => desc.fields.map (·.name)
          | .error _ => []
      | none => []
  | _ => []

/-- The names of the classes nested in a class. -/
def nestedNames (body : List Stmt) : List String :=
  body.filterMap fun s =>
    match s with
    | .enumClass _ enum => some enum.name
    | .messageClass _ _ msg _ => some msg.name
    | _ => none

/-- The class that a class statement makes, as dict conversion sees it. -/
def dictClass (file : FileDescriptorProto) (fr : Lib.Frame Obj) (const : String)
    (msg : DescriptorProto) (body : List Stmt) : DictClass :=
  let annots := annotations msg.name (linesOf (fr.enter msg.name) body)
  { name := msg.name
    cls := slottedClass (annots.map fun a => M.dataField file a.1 a.2.1 a.2.2)
    annots := annots.map fun a => ⟨a.1, M.lineEnv file a.2.1 a.2.2, a.2.2.annot⟩
    valid := M.validNames (fr.read pythonBuiltins const)
    nested := nestedNames body }

/-- The message classes of a module. -/
def moduleClasses (file : FileDescriptorProto) : List (ClassId × DictClass) :=
  (M.events file).filterMap fun e =>
    match e with
    | (fr, .messageClass full const msg body) =>
        some (M.idOf full, M.dictClass file fr const msg body)
    | _ => none

/-- **The classes of the loaded modules**, as dict conversion sees them. -/
def world (repr : PyVal → String) : DictWorld where
  idOf := M.idOf
  cls id := (M.loaded.flatMap M.moduleClasses).lookup id
  members := M.members
  repr

end ModuleSet

/-! ## Loading -/

namespace ModuleSet

variable (M : ModuleSet)

/-- A default evaluates: what it calls is an enum class with a zero, or `field`. -/
def DefaultRuns (fr : Lib.Frame Obj) : DefaultExpr → Prop
  | .pyNone | .literal _ => True
  | .enumZero qualified =>
      ∃ full, fr.read pythonBuiltins qualified = some (.enumClass full) ∧ 0 ∈ M.members full
  | .listFactory | .dictFactory | .enumFactory _ =>
      fr.read pythonBuiltins "field" = some (.runtime "field")

/-- A statement raises nothing. -/
def Runs (fr : Lib.Frame Obj) : Stmt → Prop
  | .constant _ _ => fr.read pythonBuiltins "bytes" = some (.builtin "bytes")
  | .enumClass _ enum =>
      fr.read pythonBuiltins "IntEnum" = some (.runtime "IntEnum") ∧ enum.BodyRuns
  | .messageClass _ const _ _ =>
      (∀ name ∈ ["message", "dataclass", "Message"],
        fr.read pythonBuiltins name = some (.runtime name)) ∧
      ∃ full, fr.read pythonBuiltins const = some (.descriptor full)
  | .field _ line =>
      M.DefaultRuns fr line.default ∧
        (line.quoted = false →
          ∃ hint, (M.eager (fr.bind (line.name, .value))).eval line.annot = .ok hint)

/-- Whether Python gives a name a meaning of its own: `__name__`. -/
def isDunder (name : String) : Bool := beginsWith "__" name && endsIn "__" name

end ModuleSet

/-- The names a file declares: its enums with their values, and its user-facing messages with what
they declare. -/
def FileDescriptorProto.declaredNames (file : FileDescriptorProto) : List String :=
  file.enumType.flatMap (fun enum => enum.name :: enum.value.map (·.name))
    ++ file.allMessages.flatMap fun p => p.2.name :: p.2.memberNames

namespace ModuleSet

variable (M : ModuleSet)

/-- **Modules that a process can have loaded**: of accepted files, importing loaded modules, with
statements that raise nothing. -/
structure Loaded : Prop where
  nodup : M.loaded.Nodup
  files : ∀ file ∈ M.loaded, file ∈ M.files
  accepted : ∀ file ∈ M.loaded, SchemaValidator.validate file = .ok ()
  imports : ∀ file ∈ M.loaded, ∃ imported, file.externalImports M.index = .ok imported ∧
    ∀ i ∈ imported, ∃ other ∈ M.loaded, other.name = i.2
  runs : ∀ file ∈ M.loaded, ∀ e ∈ M.events file, M.Runs e.1 e.2
  /-- No name is one that Python reserves for itself. -/
  plain : ∀ file ∈ M.loaded, ∀ name ∈ file.declaredNames, isDunder name = false

section Decide

variable (fr : Lib.Frame Obj)

instance (o : Option Obj) : Decidable (∃ full, o = some (.descriptor full)) :=
  decidable_of_iff ((o.any fun obj => obj matches .descriptor _) = true) <| by
    rcases o with - | obj
    · simp
    · cases obj <;> simp

instance (o : Option Obj) :
    Decidable (∃ full, o = some (.enumClass full) ∧ 0 ∈ M.members full) :=
  decidable_of_iff ((o.any fun obj =>
      match obj with
      | .enumClass full => decide (0 ∈ M.members full)
      | _ => false) = true) <| by
    rcases o with - | obj
    · simp
    · cases obj <;> simp

instance (default : DefaultExpr) : Decidable (M.DefaultRuns fr default) := by
  cases default <;> unfold DefaultRuns <;> infer_instance

instance (enum : EnumDescriptorProto) : Decidable enum.BodyRuns := by
  unfold EnumDescriptorProto.BodyRuns
  infer_instance

instance (s : Stmt) : Decidable (M.Runs fr s) := by
  cases s <;> unfold Runs <;> infer_instance

/-- What `Loaded` asks of one file. -/
def FileLoads (file : FileDescriptorProto) : Prop :=
  SchemaValidator.validate file = .ok () ∧
    (∃ imported, file.externalImports M.index = .ok imported ∧
      ∀ i ∈ imported, ∃ other ∈ M.loaded, other.name = i.2) ∧
    (∀ e ∈ M.events file, M.Runs e.1 e.2) ∧
    ∀ name ∈ file.declaredNames, isDunder name = false

instance (file : FileDescriptorProto) : Decidable (M.FileLoads file) := by
  unfold FileLoads
  infer_instance

/-- Modules are loaded when every file loads. -/
theorem loaded_of_fileLoads (hnodup : M.loaded.Nodup) (hfiles : ∀ file ∈ M.loaded, file ∈ M.files)
    (h : ∀ file ∈ M.loaded, M.FileLoads file) : M.Loaded where
  nodup := hnodup
  files := hfiles
  accepted := fun file hfile => (h file hfile).1
  imports := fun file hfile => (h file hfile).2.1
  runs := fun file hfile => (h file hfile).2.2.1
  plain := fun file hfile => (h file hfile).2.2.2

end Decide

end ModuleSet

end FastProto
