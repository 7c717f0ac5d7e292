import FastProto.Schema
import FastProto.Lib.Fallible

/-! # Schema validation (`plugin/_validate.py`)

`SchemaValidator` rejects what cannot be rendered into working Python: other syntaxes than proto3,
keywords, and names on two deny lists, one for types and one for fields. `validate_ok` says what an
accepted file satisfies. -/

namespace FastProto

open Lib

/-- The schema can't be turned into valid, working Python. -/
structure InvalidSchemaError where
  msg : String
  deriving DecidableEq, Repr

/-- `keyword.kwlist`. -/
def pythonKeywords : List String :=
  ["False", "None", "True", "and", "as", "assert", "async", "await", "break", "class", "continue",
    "def", "del", "elif", "else", "except", "finally", "for", "from", "global", "if", "import",
    "in", "is", "lambda", "nonlocal", "not", "or", "pass", "raise", "return", "try", "while",
    "with", "yield"]

/-- Names the generated module reads at module scope. -/
def generatedNames : List String :=
  ["Message", "Scalar", "message", "dataclass", "field", "IntEnum", "datetime", "timedelta",
    "bytes"]

/-- Field names that break the runtime. -/
def reservedFieldNames : List String :=
  ["to_bytes", "from_bytes", "which_oneof", "to_dict", "from_dict", "_fastproto_unknown",
    "__fastproto__", "field", "Scalar", "datetime", "timedelta"]

/-- `repr` of a name: the names `protoc` accepts need no escapes. -/
def reprName (name : String) : String := "'" ++ name ++ "'"

/-- Whether Python's `enum` rejects a name: `mro` or a `_sunder_`. -/
def isReservedEnumMember (name : String) : Bool :=
  let isSunder := name.startsWith "_" && name.endsWith "_" && !name.startsWith "__"
  name == "mro" || isSunder

namespace SchemaValidator

variable (file : FileDescriptorProto)

/-- Raise with a text about this file. -/
def reject {α : Type} (text : String) : Except InvalidSchemaError α :=
  .error ⟨"cannot generate " ++ file.name ++ ": " ++ text⟩

/-- `_check_identifier`. On the ASCII names of `protoc`, `str.isidentifier` is `isIdentifier`. -/
def checkIdentifier (name what : String) : Except InvalidSchemaError Unit :=
  if !isIdentifier name || pythonKeywords.contains name then
    reject file (what ++ " " ++ reprName name ++ " is not a valid Python identifier")
  else .ok ()

/-- `_check_type_name`. -/
def checkTypeName (name what : String) : Except InvalidSchemaError Unit := do
  checkIdentifier file name what
  if generatedNames.contains name then
    reject file (what ++ " " ++ reprName name ++ " shadows a name the generated module depends on")
  else .ok ()

/-- One round of the loop of `_check_enum`. -/
def checkEnumValue (value : EnumValueDescriptorProto) : Except InvalidSchemaError Unit := do
  checkIdentifier file value.name "enum value"
  if isReservedEnumMember value.name then
    reject file ("enum value " ++ reprName value.name ++ " is reserved by Python's enum")
  else .ok ()

/-- `_check_enum`. -/
def checkEnum (enum : EnumDescriptorProto) : Except InvalidSchemaError Unit := do
  checkTypeName file enum.name "enum"
  enum.value.forM (checkEnumValue file)

/-- The check of one field in `_check_message`. -/
def checkField (field : FieldDescriptorProto) : Except InvalidSchemaError Unit := do
  checkIdentifier file field.name "field"
  if reservedFieldNames.contains field.name then
    reject file
      ("field " ++ reprName field.name ++ " is reserved (would break the generated module)")
  else .ok ()

mutual

/-- `_check_message`. -/
def checkMessage : DescriptorProto → Except InvalidSchemaError Unit
  | ⟨name, field, nestedType, enumType, options, oneofDecl, others⟩ =>
      if (⟨name, field, nestedType, enumType, options, oneofDecl, others⟩ : DescriptorProto).mapEntry
      then .ok ()
      else do
        checkTypeName file name "message"
        field.forM (checkField file)
        enumType.forM (checkEnum file)
        checkMessages nestedType

/-- The loop of `_check_message` over nested types. -/
def checkMessages : List DescriptorProto → Except InvalidSchemaError Unit
  | [] => .ok ()
  | msg :: rest => do
      checkMessage msg
      checkMessages rest

end

/-- `SchemaValidator(file).validate()`. -/
def validate : Except InvalidSchemaError Unit :=
  if file.syntaxName ≠ "proto3" then
    reject file ("only proto3 is supported (syntax is "
      ++ (if file.syntaxName = "" then "proto2" else file.syntaxName) ++ ")")
  else do
    file.enumType.forM (checkEnum file)
    checkMessages file file.messageType

/-! ## Accepted files -/

/-- A name that passes `checkIdentifier`. -/
def UsableName (name : String) : Prop := isIdentifier name = true ∧ name ∉ pythonKeywords

/-- An accepted name of a type. -/
def UsableTypeName (name : String) : Prop := UsableName name ∧ name ∉ generatedNames

/-- An accepted name of a field. -/
def UsableFieldName (name : String) : Prop := UsableName name ∧ name ∉ reservedFieldNames

/-- An accepted name of an enum value. -/
def UsableValueName (name : String) : Prop := UsableName name ∧ isReservedEnumMember name = false

/-- An accepted enum. -/
def UsableEnum (enum : EnumDescriptorProto) : Prop :=
  UsableTypeName enum.name ∧ ∀ value ∈ enum.value, UsableValueName value.name

variable {file}

/-- A check that raises on a condition passes without it. -/
theorem guard_ok {c : Prop} [Decidable c] {text : String} :
    (if c then reject file text else .ok () : Except InvalidSchemaError Unit) = .ok () ↔ ¬ c := by
  unfold reject
  split
  · rename_i h
    simp [h]
  · rename_i h
    simp [h]

/-- A sequence of checks passes when each does. -/
theorem then_ok {a b : Except InvalidSchemaError Unit} :
    (a >>= fun _ => b) = .ok () ↔ a = .ok () ∧ b = .ok () := by
  cases a with
  | error e => simp [bind, Except.bind]
  | ok u => simp [bind, Except.bind]

/-- A loop of checks passes when every round does. -/
theorem forM_ok {α : Type} {f : α → Except InvalidSchemaError Unit} {l : List α} :
    l.forM f = .ok () ↔ ∀ a ∈ l, f a = .ok () := by
  induction l with
  | nil => exact ⟨fun _ _ h => absurd h List.not_mem_nil, fun _ => rfl⟩
  | cons a l ih =>
      rw [List.forall_mem_cons, ← ih]
      exact then_ok

/-- What `_check_identifier` accepts. -/
theorem checkIdentifier_ok {name what : String} :
    checkIdentifier file name what = .ok () ↔ UsableName name := by
  unfold checkIdentifier UsableName
  rw [guard_ok]
  simp

/-- What `_check_type_name` accepts. -/
theorem checkTypeName_ok {name what : String} :
    checkTypeName file name what = .ok () ↔ UsableTypeName name := by
  unfold checkTypeName UsableTypeName
  rw [then_ok, checkIdentifier_ok, guard_ok]
  simp

/-- What `_check_enum` accepts. -/
theorem checkEnum_ok {enum : EnumDescriptorProto} :
    checkEnum file enum = .ok () ↔ UsableEnum enum := by
  unfold checkEnum UsableEnum
  rw [then_ok, checkTypeName_ok, forM_ok]
  refine and_congr_right fun _ => forall₂_congr fun value _ => ?_
  unfold checkEnumValue UsableValueName
  rw [then_ok, checkIdentifier_ok, guard_ok, Bool.not_eq_true]

/-- What the check of a field accepts. -/
theorem checkField_ok {field : FieldDescriptorProto} :
    checkField file field = .ok () ↔ UsableFieldName field.name := by
  unfold checkField UsableFieldName
  rw [then_ok, checkIdentifier_ok, guard_ok]
  simp

/-- The names of an accepted message, its own and those of its fields and enums. -/
structure UsableMessage (msg : DescriptorProto) : Prop where
  name : UsableTypeName msg.name
  fields : ∀ field ∈ msg.field, UsableFieldName field.name
  enums : ∀ enum ∈ msg.enumType, UsableEnum enum

/-- What `_check_message` accepts: a map entry, or usable names and accepted nested types. -/
theorem checkMessage_ok (msg : DescriptorProto) : checkMessage file msg = .ok () ↔
    (msg.isUserFacing = true → UsableMessage msg ∧ checkMessages file msg.nestedType = .ok ()) := by
  obtain ⟨name, field, nestedType, enumType, options, oneofDecl, others⟩ := msg
  rw [checkMessage]
  unfold DescriptorProto.isUserFacing
  split
  · rename_i h
    simp [h]
  · rename_i h
    rw [then_ok, then_ok, then_ok, checkTypeName_ok, forM_ok, forM_ok]
    simp only [checkField_ok, checkEnum_ok, h, Bool.not_false, true_implies]
    exact ⟨fun ⟨h₁, h₂, h₃, h₄⟩ => ⟨⟨h₁, h₂, h₃⟩, h₄⟩, fun ⟨⟨h₁, h₂, h₃⟩, h₄⟩ => ⟨h₁, h₂, h₃, h₄⟩⟩

/-- The nested types are checked one by one. -/
theorem checkMessages_ok {msgs : List DescriptorProto} :
    checkMessages file msgs = .ok () ↔ ∀ msg ∈ msgs, checkMessage file msg = .ok () := by
  induction msgs with
  | nil => simp [checkMessages]
  | cons msg rest ih => rw [checkMessages, then_ok, ih, List.forall_mem_cons]

/-- Accepted messages have usable names at every depth. -/
theorem usable_of_checkMessages {scope : String} {msgs : List DescriptorProto}
    (h : checkMessages file msgs = .ok ()) {p : String × DescriptorProto}
    (hp : p ∈ forest DescriptorProto.isUserFacing scope msgs) : UsableMessage p.2 := by
  revert h
  refine forest_induction (motive := fun _ msgs p =>
    checkMessages file msgs = .ok () → UsableMessage p.2) ?_ ?_ scope msgs p hp
  · intro scope msgs msg hmsg hkeep h
    exact ((checkMessage_ok msg).mp (checkMessages_ok.mp h msg hmsg) hkeep).1
  · intro scope msgs msg p hmsg hkeep _ ih h
    exact ih ((checkMessage_ok msg).mp (checkMessages_ok.mp h msg hmsg) hkeep).2

/-- **An accepted file** is proto3, and every name that reaches the generated module is usable. -/
theorem validate_ok (h : validate file = .ok ()) :
    file.syntaxName = "proto3" ∧ (∀ enum ∈ file.enumType, UsableEnum enum) ∧
      ∀ p ∈ file.allMessages, UsableMessage p.2 := by
  unfold validate at h
  split at h
  · cases h
  · rename_i hsyntax
    rw [then_ok, forM_ok] at h
    exact ⟨not_not.mp hsyntax, fun enum henum => checkEnum_ok.mp (h.1 enum henum),
      fun p hp => usable_of_checkMessages h.2 hp⟩

end SchemaValidator

end FastProto
