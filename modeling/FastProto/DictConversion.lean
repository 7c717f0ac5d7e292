import FastProto.PyClass
import FastProto.Generated

/-! # Dict conversion (`_dict.py`)

`to_dict` follows the shape of the values it meets; `from_dict` follows the resolved type hints of
the class. `DictWorld` is what the two read of the classes: the dataclass fields, the hints and the
field names of the descriptor. -/

namespace FastProto

open Lib

/-! ## Type hints -/

/-- What a name or an attribute in an annotation evaluates to. -/
inductive Denoted where
  | obj (obj : Obj)
  /-- The class `Descriptor` of the native core. -/
  | coreDescriptor
  /-- An attribute that is no class: a slot of a field, a method. -/
  | attribute
  deriving DecidableEq, Repr

/-- A resolved type hint. -/
inductive Hint where
  /-- `Annotated[T, ...]`, a member of `Scalar`. -/
  | annotated (scalar : ScalarType)
  | plain (denoted : Denoted)
  | list (element : Hint)
  | dict (key value : Hint)
  /-- `T | None`. -/
  | optional (type : Hint)
  deriving DecidableEq, Repr

/-- Whether an object can stand before `| None`: classes and types can. -/
def Hint.supportsOr : Hint → Bool
  | .plain (.obj (.enumClass _)) | .plain (.obj (.messageClass _)) => true
  | .plain (.obj (.builtin _)) => true
  | .plain (.obj (.runtime name)) => name ∈ ["datetime", "timedelta", "Message", "Scalar", "IntEnum"]
  | .plain .coreDescriptor => true
  | .plain _ => false
  | .annotated _ | .list _ | .dict _ _ | .optional _ => true

/-- The hint once `T | None` is unfolded to `T`. -/
def Hint.bare : Hint → Hint
  | .optional type => type.bare
  | .annotated scalar => .annotated scalar
  | .plain denoted => .plain denoted
  | .list element => .list element
  | .dict key value => .dict key value

/-- Where annotations are evaluated: the names in scope, and the attributes of objects. -/
structure Evaluator where
  read : String → Option Denoted
  attr : Denoted → String → Option Denoted

namespace Evaluator

variable (env : Evaluator)

/-- Read a name. -/
def name (n : String) : PyResult Denoted :=
  match env.read n with
  | some denoted => .ok denoted
  | none => .error (.lookupError ("name " ++ n ++ " is not defined"))

/-- Read an attribute. -/
def getattr (denoted : Denoted) (n : String) : PyResult Denoted :=
  match env.attr denoted n with
  | some denoted => .ok denoted
  | none => .error (.attributeError n)

/-- Evaluate a dotted path. -/
def path (qualified : String) : PyResult Denoted :=
  match segments qualified with
  | [] => .error (.typeError "empty path")
  | head :: rest => do
      let denoted ← env.name head
      rest.foldlM env.getattr denoted

/-- Evaluate a type expression. -/
def eval : TypeExpr → PyResult Hint
  | .scalar s => do
      let denoted ← env.name "Scalar"
      if denoted = .obj (.runtime "Scalar") then .ok (.annotated s)
      else .error (.attributeError s.alias)
  | .native type => do
      let denoted ← env.name type.name
      .ok (.plain denoted)
  | .named _ qualified => do
      let denoted ← env.path qualified
      .ok (.plain denoted)
  | .list element => do
      let denoted ← env.name "list"
      let hint ← eval element
      if denoted = .obj (.builtin "list") then .ok (.list hint)
      else .error (.typeError "not subscriptable")
  | .dict key value => do
      let denoted ← env.name "dict"
      let keyHint ← eval key
      let valueHint ← eval value
      if denoted = .obj (.builtin "dict") then .ok (.dict keyHint valueHint)
      else .error (.typeError "not subscriptable")
  | .optional type => do
      let hint ← eval type
      if hint.supportsOr then .ok (.optional hint)
      else .error (.typeError "unsupported operand type(s) for |")

end Evaluator

/-! ## Classes -/

/-- A class that is one `@dataclass(slots=True)`. -/
def slottedClass (fields : List DataField) : PyClass where
  mro := [{ dataclass := some { slots := true, fields } }]

/-- The annotation of a field, and where it is evaluated. -/
structure FieldHint where
  name : String
  env : Evaluator
  annot : TypeExpr

/-- The resolved hint of a field, or what resolving it raises. -/
def FieldHint.hint (a : FieldHint) : PyResult Hint := a.env.eval a.annot

/-- What dict conversion reads of a message class. -/
structure DictClass where
  /-- `__name__`. -/
  name : String
  /-- The class as `cls(**kwargs)` calls it. -/
  cls : PyClass
  /-- `__annotations__`. -/
  annots : List FieldHint
  /-- `__fastproto__.field_names()`. -/
  valid : List String
  /-- The nested classes, by name: attributes that hide inherited ones. -/
  nested : List String

/-- `get_type_hints(cls, ...)`. -/
def DictClass.hints (cls : DictClass) : PyResult (List (String × Hint)) :=
  cls.annots.mapM fun a => a.hint.map fun hint => (a.name, hint)

/-- The names in `__dataclass_fields__`. -/
def DictClass.fieldNames (cls : DictClass) : List String :=
  match cls.cls.mro.head?.bind (·.dataclass) with
  | some dc => dc.fields.map (·.name)
  | none => []

/-- `cls(**kwargs)`. A nested class in place of the unknown-fields slot makes it read-only. -/
def DictClass.call (cls : DictClass) (id : ClassId) (kwargs : Kwargs) : PyResult PyVal :=
  if unknownSlot ∈ cls.nested then .error (.attributeError "attribute is read-only")
  else cls.cls.call id kwargs

/-- Looking up a method of `Message` on a class: a nested class of that name hides it, and calling
the nested class is no conversion. -/
def DictClass.method (cls : DictClass) (name : String) : PyResult Unit :=
  if name ∈ cls.nested then .error (.typeError (name ++ " is a nested class")) else .ok ()

/-- The classes of a program. -/
structure DictWorld where
  /-- The identity of the class generated for a type, by full name. -/
  idOf : String → ClassId
  /-- The message classes. -/
  cls : ClassId → Option DictClass
  /-- The values of the members of an enum class. -/
  members : String → List Int
  /-- `repr`, in the text of an error. -/
  repr : PyVal → String

namespace DictWorld

variable (w : DictWorld)

/-! ## to_dict -/

mutual

/-- `_to_value`. -/
def toValue : PyVal → PyResult PyVal
  | .list items => do
      let items ← toItems items
      .ok (.list items)
  | .dict items => do
      let items ← toPairs items
      .ok (.dict items)
  | .inst id attrs =>
      match w.cls id with
      | none => .ok (.inst id attrs)
      | some cls => do
          let items ← cls.fieldNames.mapM fun name =>
            match (toAttrs attrs).lookup name with
            | some value => do
                let value ← value
                .ok (PyVal.str name, value)
            | none => .error (.attributeError name)
          .ok (.dict items)
  | value => .ok value

/-- The items of a list, converted. -/
def toItems : List PyVal → PyResult (List PyVal)
  | [] => .ok []
  | value :: rest => do
      let value ← toValue value
      let rest ← toItems rest
      .ok (value :: rest)

/-- The values of a dict, converted. -/
def toPairs : List (PyVal × PyVal) → PyResult (List (PyVal × PyVal))
  | [] => .ok []
  | (key, value) :: rest => do
      let value ← toValue value
      let rest ← toPairs rest
      .ok ((key, value) :: rest)

/-- Every attribute with its converted value. -/
def toAttrs : List (String × PyVal) → List (String × PyResult PyVal)
  | [] => []
  | (name, value) :: rest => (name, toValue value) :: toAttrs rest

end

/-! ## from_dict -/

/-- `tp(value)` on an `IntEnum` class: a value outside the enum stays as it is. -/
def coerce (full : String) (value : PyVal) : PyResult PyVal :=
  if w.members full = [] then .error (.typeError "has no members")
  else
    match value.shape.index with
    | .ok i => if i ∈ w.members full then .ok (.member (w.idOf full) i) else .ok value
    | .error _ => .ok value

/-- `_from_leaf`, for values that are no dict. -/
def fromLeaf (hint : Hint) (value : PyVal) : PyResult PyVal :=
  match hint with
  | .plain (.obj (.enumClass full)) => w.coerce full value
  | _ => .ok value

/-- Raised for a key that is no field. -/
def unknownKey (cls : DictClass) (key : PyVal) : PyErr :=
  .valueError (w.repr (.str cls.name) ++ " has no field " ++ w.repr key ++ "; valid fields: "
    ++ w.repr (.list ((cls.valid.dedup.mergeSort fun a b => decide (a ≤ b)).map .str)))

mutual

/-- `_from_value`. -/
def fromValue (hint : Hint) : PyVal → PyResult PyVal
  | .pyNone => .ok .pyNone
  | .list items =>
      match hint.bare with
      | .list element => do
          let items ← fromItems element items
          .ok (.list items)
      | h => w.fromLeaf h (.list items)
  | .dict items =>
      match hint.bare with
      | .dict _ value => do
          let items ← fromPairs value items
          .ok (.dict items)
      | .plain (.obj (.messageClass full)) =>
          match w.cls (w.idOf full) with
          | none => .ok (.dict items)
          | some cls => do
              let hints ← cls.hints
              let kwargs ← fromData cls hints items
              cls.call (w.idOf full) kwargs
      | h => w.fromLeaf h (.dict items)
  | value => w.fromLeaf hint.bare value

/-- The items of a list, rebuilt. -/
def fromItems (element : Hint) : List PyVal → PyResult (List PyVal)
  | [] => .ok []
  | value :: rest => do
      let value ← fromValue element value
      let rest ← fromItems element rest
      .ok (value :: rest)

/-- The values of a dict, rebuilt. -/
def fromPairs (hint : Hint) : List (PyVal × PyVal) → PyResult (List (PyVal × PyVal))
  | [] => .ok []
  | (key, value) :: rest => do
      let value ← fromValue hint value
      let rest ← fromPairs hint rest
      .ok ((key, value) :: rest)

/-- The loop of `from_dict`. -/
def fromData (cls : DictClass) (hints : List (String × Hint)) :
    List (PyVal × PyVal) → PyResult Kwargs
  | [] => .ok []
  | (key, value) :: rest =>
      match key with
      | .str name =>
          if name ∈ cls.valid then
            match hints.lookup name with
            | none => .error (.lookupError name)
            | some hint => do
                let value ← fromValue hint value
                let rest ← fromData cls hints rest
                .ok ((name, value) :: rest)
          else .error (w.unknownKey cls key)
      | _ => .error (w.unknownKey cls key)

end

/-- `from_dict`. -/
def fromDict (id : ClassId) (cls : DictClass) (data : List (PyVal × PyVal)) : PyResult PyVal := do
  let hints ← cls.hints
  let kwargs ← w.fromData cls hints data
  cls.call id kwargs

/-! ## The methods -/

/-- `type(x).from_dict(x.to_dict())`. -/
def convert (x : PyVal) : PyResult PyVal :=
  match x with
  | .inst id attrs =>
      match w.cls id with
      | none => .error (.attributeError "to_dict")
      | some cls => do
          cls.method "to_dict"
          let data ← w.toValue (.inst id attrs)
          cls.method "from_dict"
          match data with
          | .dict items => w.fromDict id cls items
          | _ => .error (.attributeError "items")
  | _ => .error (.attributeError "to_dict")

/-! ## Equality -/

mutual

/-- What `==` compares of a value: the fields of a message, an enum member and a `bool` as a
number. -/
def compared : PyVal → PyVal
  | .member _ value => .int value
  | .bool b => .int (if b then 1 else 0)
  | .list items => .list (comparedItems items)
  | .dict items => .dict (comparedPairs items)
  | .inst id attrs =>
      match w.cls id with
      | none => .inst id attrs
      | some cls =>
          .inst id (cls.fieldNames.map fun name =>
            (name, ((comparedAttrs attrs).lookup name).getD .other))
  | value => value

/-- The items of a list, as `==` compares them. -/
def comparedItems : List PyVal → List PyVal
  | [] => []
  | value :: rest => compared value :: comparedItems rest

/-- The values of a dict, as `==` compares them. -/
def comparedPairs : List (PyVal × PyVal) → List (PyVal × PyVal)
  | [] => []
  | (key, value) :: rest => (key, compared value) :: comparedPairs rest

/-- Every attribute with what `==` compares of it. -/
def comparedAttrs : List (String × PyVal) → List (String × PyVal)
  | [] => []
  | (name, value) :: rest => (name, compared value) :: comparedAttrs rest

end

/-- **A message survives the conversion to a dict and back**: it succeeds, and the result is an
instance of the same class with equal fields. -/
def RoundTrips (x : PyVal) : Prop := ∃ y, w.convert x = .ok y ∧ w.compared y = w.compared x

end DictWorld

end FastProto
