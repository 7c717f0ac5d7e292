import FastProto.Lib.Scope
import FastProto.Render
import Mathlib.Data.List.Dedup
import Mathlib.Data.List.Sort

/-! # The header of a generated module (`plugin/_render.py`)

Which names a generated module imports: the parts of the runtime its text uses, and the top-level
classes of other files that its fields refer to. The imports of another file bind its top-level
names; a nested type is reached through its container. -/

namespace FastProto

open Lib

/-- The field whose type a field refers to: the value field for a map. None where `next` finds no
value field in a map entry. -/
def mapTarget (index : TypeIndex) (field : FieldDescriptorProto) : Option FieldDescriptorProto :=
  match index.mapEntry field with
  | some entry => entry.field.find? fun f => f.number == 2
  | none => some field

namespace FileDescriptorProto

variable (index : TypeIndex) (file : FileDescriptorProto)

/-- The fields of the user-facing messages, in order. -/
def userFields : List FieldDescriptorProto := file.allMessages.flatMap (·.2.field)

/-- `needs_field`: whether a default is written as `field(...)`. -/
def needsField : Bool :=
  file.userFields.any fun f =>
    f.repeated ||
      match f.type with
      | .enum typeName => isNestedPath (index.qualified typeName)
      | _ => false

/-- `has_enum`. -/
def hasEnum : Bool :=
  !file.enumType.isEmpty || file.allMessages.any fun p => !p.2.enumType.isEmpty

/-- `_uses_scalar`. -/
def usesScalar : Bool :=
  file.userFields.any fun f => (index.mapEntry f).isSome || f.type.scalar?.isSome

/-- `_native_names`. -/
def nativeNames : List String :=
  let natives := file.userFields.filterMap fun f =>
    (mapTarget index f).bind fun target => target.type.typeName.bind nativeWkt
  ([.datetime, .timedelta].filter fun native => natives.contains native).map NativeType.name

/-- The names the header binds, in order. -/
def runtimeNames : List String :=
  ["dataclass"] ++ (if file.needsField index then ["field"] else [])
    ++ file.nativeNames index ++ (if file.hasEnum then ["IntEnum"] else []) ++ ["Message"]
    ++ (if file.usesScalar index then ["Scalar"] else []) ++ ["message"]

/-- `_referenced_type_names`. -/
def referencedTypeNames : List String :=
  file.userFields.filterMap fun f =>
    (mapTarget index f).bind fun target =>
      if target.type.isNamed then target.type.typeName else none

end FileDescriptorProto

/-! ## Imports of other files -/

/-- Two types visible from one module share a short class name. -/
structure ShortNameCollisionError where
  msg : String
  deriving DecidableEq, Repr

/-- The local variables of `_external_imports`. -/
structure ImportState where
  /-- The `file:name` that owns a top-level name. -/
  owner : List (String × String)
  /-- The imported names, each with the file that defines it. -/
  imported : List (String × String) := []
  deriving DecidableEq, Repr

namespace ImportState

/-- The table is seeded with the file's own top-level definitions. -/
def initial (file : FileDescriptorProto) : ImportState where
  owner := (file.enumType.map (·.name) ++ file.messageType.map (·.name)).map fun name =>
    (name, file.name ++ ":" ++ name)

/-- `consider`: the container of an external type is claimed by its file, unless another file owns
the name. -/
def consider (index : TypeIndex) (file : FileDescriptorProto) (st : ImportState)
    (typeName : String) : Except ShortNameCollisionError ImportState :=
  match index.get typeName with
  | none => .ok st
  | some info =>
      if info.file = file.name then .ok st
      else
        let top := (segments info.qualified).headD ""
        let claimant := info.file ++ ":" ++ top
        let held := (st.owner.lookup top).getD claimant
        if held ≠ claimant then
          .error ⟨"cannot generate " ++ file.name ++ ": two different types would both be imported"
            ++ " as `" ++ top ++ "` (" ++ held ++ " and " ++ claimant ++ ")"⟩
        else
          .ok { owner := upsertBy (· == ·) st.owner top claimant
                imported := st.imported.insert (top, info.file) }

end ImportState

/-- The names `_external_imports` collects, with their files. -/
def FileDescriptorProto.externalImports (index : TypeIndex) (file : FileDescriptorProto) :
    Except ShortNameCollisionError (List (String × String)) := do
  let st ← (file.referencedTypeNames index).foldlM (ImportState.consider index file)
    (ImportState.initial file)
  .ok st.imported

/-! ## The import statements -/

/-- `s.removesuffix(ending)`. -/
def removeSuffix (ending s : String) : String :=
  if endsIn ending s then String.ofList (s.toList.take (s.length - ending.length)) else s

/-- `_module_of`: the dotted module path of a generated file. -/
def moduleOf (protoName : String) : String :=
  String.ofList ((removeSuffix ".proto" protoName ++ "_pb").toList.map fun c =>
    if c == '/' then '.' else c)

/-- What a name is imported from. -/
inductive ImportSource where
  /-- The structural well-known types, which ship inside the runtime package. -/
  | wellknown
  /-- The module generated for another file. -/
  | generated (module : String)
  deriving DecidableEq, Repr

/-- What the types of a file are imported from. -/
def importSource (protoName : String) : ImportSource :=
  if beginsWith "google/protobuf/" protoName then .wellknown else .generated (moduleOf protoName)

/-- The import of some names, twice for a generated module: within a package and outside of one. -/
structure ImportStatement where
  source : ImportSource
  names : List String
  deriving DecidableEq, Repr

/-- The lines of an import statement in the module of a file. -/
def ImportStatement.lines (file : FileDescriptorProto) (statement : ImportStatement) :
    List String :=
  let joined := ", ".intercalate statement.names
  match statement.source with
  | .wellknown => ["from fastproto.wellknown import " ++ joined]
  | .generated module =>
      let depth := file.name.toList.count '/'
      let relative := String.ofList (List.replicate (1 + depth) '.') ++ module
      ["try:",
        "    from " ++ relative ++ " import " ++ joined,
        "except ImportError:  # generated modules used outside a package",
        "    from " ++ module ++ " import " ++ joined]

/-- `sorted` of the set of some names. -/
def sortedSet (names : List String) : List String := names.dedup.insertionSort (· ≤ ·)

/-- The names imported from one source. -/
def namesFrom (imported : List (String × String)) (source : ImportSource) : List String :=
  sortedSet ((imported.filter fun p => importSource p.2 = source).map Prod.fst)

/-- The modules of `by_module`. -/
def importedModules (imported : List (String × String)) : List String :=
  sortedSet (imported.filterMap fun p =>
    match importSource p.2 with
    | .wellknown => none
    | .generated module => some module)

/-- The statements that import the collected names: `wellknown`, then `by_module`. -/
def importStatements (imported : List (String × String)) : List ImportStatement :=
  let wellknown := namesFrom imported .wellknown
  (if wellknown.isEmpty then [] else [⟨.wellknown, wellknown⟩])
    ++ (importedModules imported).map fun module =>
      ⟨.generated module, namesFrom imported (.generated module)⟩

namespace FileDescriptorProto

variable (index : TypeIndex) (file : FileDescriptorProto)

/-- `_external_imports`, as statements. -/
def externalStatements : Except ShortNameCollisionError (List ImportStatement) :=
  (file.externalImports index).map importStatements

/-- `_external_imports`: the lines it returns. -/
def externalLines : Except ShortNameCollisionError (List String) :=
  (file.externalStatements index).map fun statements =>
    statements.flatMap (ImportStatement.lines file)

end FileDescriptorProto

end FastProto
