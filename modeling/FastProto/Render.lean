import FastProto.TypeIndex

/-! # Rendering of fields (`plugin/_render.py`)

A field becomes one line of a dataclass body: a name, an annotation, quoted when it names a generated
class, and a default. The lines are kept as syntax trees; `text` is the source they stand for. -/

namespace FastProto

open Lib

/-! ## Annotations and defaults -/

/-- The member of `Scalar` for a scalar type. -/
def ScalarType.alias : ScalarType → String
  | .double => "Double"
  | .float => "Float"
  | .int32 => "Int32"
  | .int64 => "Int64"
  | .uint32 => "UInt32"
  | .uint64 => "UInt64"
  | .sint32 => "SInt32"
  | .sint64 => "SInt64"
  | .fixed32 => "Fixed32"
  | .fixed64 => "Fixed64"
  | .sfixed32 => "SFixed32"
  | .sfixed64 => "SFixed64"
  | .bool => "Bool"
  | .string => "String"
  | .bytes => "Bytes"

/-- The literal a scalar field defaults to. -/
def ScalarType.literal : ScalarType → String
  | .double | .float => "0.0"
  | .bool => "False"
  | .string => "\"\""
  | .bytes => "b\"\""
  | _ => "0"

/-- A type expression of an annotation. -/
inductive TypeExpr where
  /-- `Scalar.Int32`. -/
  | scalar (scalar : ScalarType)
  /-- `datetime` or `timedelta`. -/
  | native (type : NativeType)
  /-- The class generated for a type, written as its path `Outer.Inner`. -/
  | named (type : ProtoType) (qualified : String)
  | list (element : TypeExpr)
  | dict (key value : TypeExpr)
  /-- `T | None`. -/
  | optional (type : TypeExpr)
  deriving DecidableEq, Repr

/-- The source of a type expression. -/
def TypeExpr.text : TypeExpr → String
  | .scalar s => "Scalar." ++ s.alias
  | .native type => type.name
  | .named _ qualified => qualified
  | .list element => "list[" ++ element.text ++ "]"
  | .dict key value => "dict[" ++ key.text ++ ", " ++ value.text ++ "]"
  | .optional type => type.text ++ " | None"

/-- The default of a dataclass field. -/
inductive DefaultExpr where
  | pyNone
  /-- The zero of a scalar type. -/
  | literal (scalar : ScalarType)
  /-- `E(0)`. -/
  | enumZero (qualified : String)
  /-- `field(default_factory=list)`. -/
  | listFactory
  /-- `field(default_factory=dict)`. -/
  | dictFactory
  /-- `field(default_factory=lambda: E(0))`. -/
  | enumFactory (qualified : String)
  deriving DecidableEq, Repr

/-- The source of a default. -/
def DefaultExpr.text : DefaultExpr → String
  | .pyNone => "None"
  | .literal s => s.literal
  | .enumZero qualified => qualified ++ "(0)"
  | .listFactory => "field(default_factory=list)"
  | .dictFactory => "field(default_factory=dict)"
  | .enumFactory qualified => "field(default_factory=lambda: " ++ qualified ++ "(0))"

/-- One field line of a class body. -/
structure FieldLine where
  name : String
  annot : TypeExpr
  /-- Whether the annotation is a string literal. -/
  quoted : Bool := false
  default : DefaultExpr
  deriving DecidableEq, Repr

/-- The source of a field line. -/
def FieldLine.text (line : FieldLine) : String :=
  let annot :=
    if line.quoted then "\"" ++ line.annot.text ++ "\"" else line.annot.text
  line.name ++ ": " ++ annot ++ " = " ++ line.default.text

/-! ## Fields -/

/-- Whether a path leads into an enclosing class. -/
def isNestedPath (qualified : String) : Bool := qualified.toList.contains '.'

/-- `_element_annotation`: the annotation of a single element. -/
def elementAnnot (index : TypeIndex) (type : ProtoType) : TypeExpr :=
  match type with
  | .scalar scalar => .scalar scalar
  | .message typeName | .enum typeName =>
      match nativeWkt typeName with
      | some native => .native native
      | none => .named type (index.qualified typeName)

/-- `_render_enum_field`: a nested enum cannot be named while its enclosing class is being defined,
so it is quoted and its zero value deferred. -/
def renderEnumField (index : TypeIndex) (field : FieldDescriptorProto) (typeName : String) :
    FieldLine :=
  let qual := index.qualified typeName
  if field.hasPresence then
    ⟨field.name, .optional (.named field.type qual), isNestedPath qual, .pyNone⟩
  else if isNestedPath qual then ⟨field.name, .named field.type qual, true, .enumFactory qual⟩
  else ⟨field.name, .named field.type qual, false, .enumZero qual⟩

/-- `_render_singular_field`. -/
def renderSingularField (index : TypeIndex) (field : FieldDescriptorProto) : FieldLine :=
  match field.type.typeName.bind nativeWkt with
  | some native => ⟨field.name, .optional (.native native), false, .pyNone⟩
  | none =>
      match field.type with
      | .message typeName =>
          ⟨field.name, .optional (.named field.type (index.qualified typeName)), true, .pyNone⟩
      | .enum typeName => renderEnumField index field typeName
      | .scalar scalar =>
          if field.hasPresence then ⟨field.name, .optional (.scalar scalar), false, .pyNone⟩
          else ⟨field.name, .scalar scalar, false, .literal scalar⟩

/-- `_render_field`. None where `next` finds no key or value field in a map entry. -/
def renderField (index : TypeIndex) (field : FieldDescriptorProto) : Option FieldLine :=
  match index.mapEntry field with
  | some entry => do
      let key ← entry.field.find? fun f => f.number == 1
      let value ← entry.field.find? fun f => f.number == 2
      some ⟨field.name,
        .dict (elementAnnot index key.type) (elementAnnot index value.type),
        value.type.isNamed, .dictFactory⟩
  | none =>
      if field.repeated then
        some ⟨field.name, .list (elementAnnot index field.type), field.type.isNamed,
          .listFactory⟩
      else some (renderSingularField index field)

end FastProto
