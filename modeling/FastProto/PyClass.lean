import FastProto.Object
import FastProto.Descriptor
import FastProto.Lib.Fallible
import FastProto.Lib.Assoc

/-! # Message classes and how they are called

A message class is a Python class that inherits from `Message`: its own layer and the layers of its
bases, in method resolution order, each with the constructor machinery it defines, the names its body
binds and the dataclass it was decorated as. `PyClass.setattr` and `PyClass.getattr` are attribute
access through an instance, `PyClass.call` is `cls(**kwargs)`. Functions the user wrote are
arbitrary. -/

namespace FastProto

open Lib

/-- Keyword arguments, in the order they are passed. -/
abbrev Kwargs := List (String × PyVal)

/-- The attributes stored on an instance. -/
abbrev Attrs := List (String × PyVal)

/-- `setattr`: replace the attribute, or add it. -/
abbrev setAttr : Attrs → String → PyVal → Attrs := upsertBy (· == ·)

/-- The hidden slot of `Message` with the raw bytes of unknown fields. -/
def unknownSlot : String := "_fastproto_unknown"

/-! ## Dataclasses -/

/-- How an entry of `__dataclass_fields__` is annotated. -/
inductive FieldType where
  | regular
  | classVar
  | initVar
  deriving DecidableEq, Repr

/-- A `default_factory`: the builtins the guard of the fast path knows, or another object, with what
calling it does. -/
inductive Factory where
  | list
  | dict
  | other (call : PyResult PyVal)

/-- The object a factory makes. -/
def Factory.make : Factory → PyResult PyVal
  | .list => .ok (.list [])
  | .dict => .ok (.dict [])
  | .other call => call

/-- An entry of `__dataclass_fields__`. -/
structure DataField where
  name : String
  init : Bool := true
  default : Option PyVal := none
  defaultFactory : Option Factory := none
  fieldType : FieldType := .regular
  /-- Whether the entry comes from a base, whose body binds the default. -/
  inherited : Bool := false

/-- What `@dataclass` leaves on a class. -/
structure Dataclass where
  init : Bool := true
  frozen : Bool := false
  slots : Bool := false
  /-- `__dataclass_fields__`, the inherited entries first. -/
  fields : List DataField

/-- Whether an entry of the name is an attribute of the instances. -/
def Dataclass.hasRegular (dc : Dataclass) (name : String) : Bool :=
  dc.fields.any fun f => f.name == name && decide (f.fieldType = .regular)

/-- What a class binds a name to, as attribute access through an instance meets it. -/
inductive ClassEntry where
  /-- The descriptor of a slot: the attribute is stored on the instance. -/
  | slot
  /-- An object that reads as itself, such as a default. -/
  | value (v : PyVal)
  /-- An object with `__get__` or `__set__`, such as a property: what reading and assigning run. -/
  | descriptor (get : Attrs → PyResult PyVal) (set : Attrs → PyVal → PyResult Attrs)

/-- One class of the method resolution order, with what its body defines. -/
structure Layer where
  /-- `__init__` written in the class body; it runs on an instance with these attributes. -/
  init : Option (Attrs → Kwargs → PyResult Attrs) := none
  /-- `__post_init__` written in the class body; it is passed the `InitVar` arguments. -/
  postInit : Option (Attrs → List PyVal → PyResult Attrs) := none
  /-- `__new__` written in the class body. -/
  new : Option (Kwargs → PyResult PyVal) := none
  /-- `__setattr__` written in the class body. -/
  setattr : Option (Attrs → String → PyVal → PyResult Attrs) := none
  /-- `__getattribute__` or `__getattr__` written in the class body: what reading an attribute
  gives. -/
  getattribute : Option (Attrs → String → PyResult PyVal) := none
  /-- `__slots__` written in the class body. -/
  slots : Option (List String) := none
  /-- What the class body binds besides the defaults of the dataclass. -/
  body : List (String × ClassEntry) := []
  dataclass : Option Dataclass := none

/-- An `IntEnum` class: its values, and its `_missing_` hook unless it is the default one. -/
structure EnumClass where
  values : List Int
  missing : Option (Int → PyResult PyVal) := none

/-- A Python class. -/
structure PyClass where
  /-- The class itself and its bases, up to and without `Message`. Other attributes of `Message` and
  `object` than the slot are a last layer, where they matter. -/
  mro : List Layer := []
  /-- `__call__` of a metaclass that overrides `type.__call__`. -/
  metaCall : Option (Kwargs → PyResult PyVal) := none
  /-- Whether abstract methods are left, so that `object.__new__` raises. -/
  abstract : Bool := false
  /-- The descriptor `__fastproto__` refers to, own or inherited. -/
  fastproto : Option DescId := none
  /-- What the class is as an enum. -/
  enum : Option EnumClass := none

/-! ## Attribute access -/

namespace Layer

/-- Whether `slots=True` turns the attribute into a slot. -/
def slotted (layer : Layer) (name : String) : Bool :=
  layer.dataclass.any fun dc => dc.slots && dc.hasRegular name

/-- Whether instances get a `__dict__` from the class. -/
def givesDict (layer : Layer) : Bool :=
  match layer.slots with
  | some names => names.contains "__dict__"
  | none => !layer.dataclass.any (·.slots)

/-- Whether one of the bases has a slot of the name; `Message` has the one of the unknown bytes. -/
def inheritsSlot (bases : List Layer) (name : String) : Bool :=
  name == unknownSlot ||
    bases.any fun base => base.slotted name || (base.slots.getD []).contains name

/-- The default of an entry that the class itself declares. -/
def ownDefault (layer : Layer) (name : String) : Option PyVal := do
  let dc ← layer.dataclass
  let f ← dc.fields.find? fun f => f.name == name
  if f.inherited then none else f.default

/-- What the class itself binds a name to. `slots=True` takes away the defaults of the attributes it
makes slots of, and makes none that a base has. -/
def entry (layer : Layer) (bases : List Layer) (name : String) : Option ClassEntry :=
  if layer.slotted name then
    if inheritsSlot bases name then none else some .slot
  else if (layer.slots.getD []).contains name then some .slot
  else (layer.body.lookup name).or ((layer.ownDefault name).map .value)

/-- What a class of the method resolution order, or `Message`, binds a name to. -/
def lookupType : List Layer → String → Option ClassEntry
  | [], name => if name = unknownSlot then some .slot else none
  | layer :: bases, name => (layer.entry bases name).or (lookupType bases name)

/-- Whether the `__setattr__` of a frozen dataclass rejects a name: any on its own instances, its
fields on those of a subclass. -/
def rejects (layer : Layer) (own : Bool) (name : String) : Bool :=
  layer.dataclass.any fun dc => dc.frozen && (own || dc.hasRegular name)

/-- The `__setattr__` found from a class of the method resolution order on, `last` at its end. The
one of a frozen dataclass passes on what it does not reject. -/
def setattrFrom (last : Attrs → String → PyVal → PyResult Attrs) :
    Bool → List Layer → Attrs → String → PyVal → PyResult Attrs
  | _, [], attrs, name, value => last attrs name value
  | own, layer :: bases, attrs, name, value =>
      match layer.setattr with
      | some setattr => setattr attrs name value
      | none =>
          if layer.rejects own name then .error (.attributeError ("cannot assign to field " ++ name))
          else setattrFrom last false bases attrs name value

end Layer

namespace PyClass

/-- What the class or a base binds a name to. -/
def typeLookup (cls : PyClass) (name : String) : Option ClassEntry := Layer.lookupType cls.mro name

/-- Whether instances have a `__dict__`. -/
def hasDict (cls : PyClass) : Bool := cls.mro.any (·.givesDict)

/-- `object.__setattr__`. -/
def objectSetattr (cls : PyClass) (attrs : Attrs) (name : String) (value : PyVal) :
    PyResult Attrs :=
  match cls.typeLookup name with
  | some .slot => .ok (setAttr attrs name value)
  | some (.descriptor _ set) => set attrs value
  | _ => if cls.hasDict then .ok (setAttr attrs name value) else .error (.attributeError name)

/-- `setattr` on an instance with these attributes. -/
def setattr (cls : PyClass) (attrs : Attrs) (name : String) (value : PyVal) : PyResult Attrs :=
  Layer.setattrFrom cls.objectSetattr true cls.mro attrs name value

/-- `setattr` with one name and value after the other. -/
def assign (cls : PyClass) (attrs : Attrs) (assignments : List (String × PyVal)) : PyResult Attrs :=
  assignments.foldlM (fun attrs p => cls.setattr attrs p.1 p.2) attrs

/-- Where `setattr` stores what it is given, so do assignments. -/
theorem assign_eq {cls : PyClass} {assignments : List (String × PyVal)}
    (h : ∀ p ∈ assignments, ∀ attrs, cls.setattr attrs p.1 p.2 = .ok (setAttr attrs p.1 p.2)) :
    ∀ attrs, cls.assign attrs assignments
      = .ok (assignments.foldl (fun acc p => setAttr acc p.1 p.2) attrs) := by
  unfold assign
  induction assignments with
  | nil => exact fun _ => rfl
  | cons p assignments ih =>
      intro attrs
      rw [List.forall_mem_cons] at h
      rw [List.foldlM_cons, h.1, ok_bind, ih h.2, List.foldl_cons]

/-- `object.__getattribute__`. -/
def objectGetattribute (cls : PyClass) (attrs : Attrs) (name : String) : PyResult PyVal :=
  match cls.typeLookup name with
  | some (.descriptor get _) => get attrs
  | entry =>
      match attrs.lookup name, entry with
      | some value, _ => .ok value
      | none, some (.value value) => .ok value
      | none, _ => .error (.attributeError name)

/-- `getattr` on an instance with these attributes. -/
def getattr (cls : PyClass) (attrs : Attrs) (name : String) : PyResult PyVal :=
  match cls.mro.findSome? (·.getattribute) with
  | some getattribute => getattribute attrs name
  | none => cls.objectGetattribute attrs name

/-- Store the unknown bytes, through `object.__setattr__` if `setattr` raises an error that is
caught. -/
def storeUnknown (cls : PyClass) (caught : PyErr → Bool) (attrs : Attrs) (unknown : Bytes) :
    PyResult Attrs :=
  match cls.setattr attrs unknownSlot (.bytes unknown) with
  | .ok attrs => .ok attrs
  | .error err =>
      if caught err then cls.objectSetattr attrs unknownSlot (.bytes unknown) else .error err

end PyClass

/-! ## Calling a class -/

/-- The value an entry stores on the instance: the argument, else the default, else what the factory
makes. `none` stores nothing: the entry is no attribute of the instance. -/
def DataField.stored (slots : Bool) (f : DataField) (kwargs : Kwargs) :
    PyResult (Option PyVal) :=
  if f.fieldType ≠ .regular then .ok none
  else
    match (if f.init then kwargs.lookup f.name else none), f.default, f.defaultFactory with
    | some value, _, _ => .ok (some value)
    | none, some value, _ => .ok (if f.init || slots then some value else none)
    | none, none, some factory => factory.make.map some
    | none, none, none =>
        if f.init then .error (.typeError ("missing argument " ++ f.name)) else .ok none

/-- Whether an entry is a parameter of the generated `__init__`. -/
def DataField.isParam (f : DataField) : Bool := f.init && decide (f.fieldType ≠ .classVar)

/-- The assignment of a generated `__init__` to one field. -/
def DataField.assign (setattr : Attrs → String → PyVal → PyResult Attrs) (slots : Bool)
    (kwargs : Kwargs) (attrs : Attrs) (f : DataField) : PyResult Attrs := do
  match ← f.stored slots kwargs with
  | some value => setattr attrs f.name value
  | none => .ok attrs

/-- The assignments of a generated `__init__`, field by field: a frozen dataclass makes them through
`object`. -/
def assignFields (cls : PyClass) (dc : Dataclass) (kwargs : Kwargs) (attrs : Attrs) :
    PyResult Attrs :=
  dc.fields.foldlM
    (DataField.assign (if dc.frozen then cls.objectSetattr else cls.setattr) dc.slots kwargs) attrs

/-- The `InitVar` arguments a generated `__init__` passes on. -/
def initVarArgs (fields : List DataField) (kwargs : Kwargs) : PyResult (List PyVal) :=
  (fields.filter fun f => f.fieldType = .initVar).mapM fun f =>
    match kwargs.lookup f.name, f.default with
    | some value, _ => .ok value
    | none, some value => .ok value
    | none, none => .error (.typeError ("missing argument " ++ f.name))

/-- The errors `Message.__post_init__` catches. -/
def PyErr.rejectsAssignment : PyErr → Bool
  | .attributeError _ | .typeError _ => true
  | _ => false

/-- `Message.__post_init__`: it fills the unknown-fields slot and takes no further argument. -/
def messagePostInit (cls : PyClass) (attrs : Attrs) (args : List PyVal) : PyResult Attrs :=
  match args with
  | [] => cls.storeUnknown PyErr.rejectsAssignment attrs []
  | _ :: _ => .error (.typeError "__post_init__() takes 1 positional argument")

/-- The `__init__` that `@dataclass` generates, on an instance of a class. -/
def generatedInit (cls : PyClass) (dc : Dataclass)
    (postInit : Attrs → List PyVal → PyResult Attrs) (attrs : Attrs) (kwargs : Kwargs) :
    PyResult Attrs :=
  match kwargs.find? fun kw => !dc.fields.any fun f => f.isParam && f.name == kw.1 with
  | some kw => .error (.typeError ("got an unexpected keyword argument " ++ kw.1))
  | none => do
      let attrs ← assignFields cls dc kwargs attrs
      let args ← initVarArgs dc.fields kwargs
      postInit attrs args

namespace PyClass

/-- The `__post_init__` found along the method resolution order. -/
def postInit (cls : PyClass) : Attrs → List PyVal → PyResult Attrs :=
  (cls.mro.findSome? (·.postInit)).getD (messagePostInit cls)

/-- The `__init__` a layer has once it is decorated: `@dataclass` does not replace one written in
the class body. -/
def layerInit (cls : PyClass) (layer : Layer) : Option (Attrs → Kwargs → PyResult Attrs) :=
  match layer.init with
  | some init => some init
  | none =>
      match layer.dataclass with
      | some dc => if dc.init then some (generatedInit cls dc cls.postInit) else none
      | none => none

/-- The `__init__` found along the method resolution order; `object.__init__` takes no argument and
stores nothing. -/
def runInit (cls : PyClass) (attrs : Attrs) (kwargs : Kwargs) : PyResult Attrs :=
  match cls.mro.findSome? cls.layerInit with
  | some init => init attrs kwargs
  | none => if kwargs = [] then .ok attrs else .error (.typeError "takes no arguments")

/-- `object.__new__(cls)`: an instance without attributes. -/
def objectNew (cls : PyClass) : PyResult Attrs :=
  if cls.abstract then .error (.typeError "Can't instantiate abstract class") else .ok []

/-- `cls(**kwargs)`, for the class with identity `id`. A `__new__` of the user that returns an
instance of the class has `__init__` run on it. -/
def call (id : ClassId) (cls : PyClass) (kwargs : Kwargs) : PyResult PyVal :=
  match cls.metaCall with
  | some call => call kwargs
  | none =>
      match cls.mro.findSome? (·.new) with
      | none => do
          let attrs ← cls.objectNew
          let attrs ← cls.runInit attrs kwargs
          .ok (.inst id attrs)
      | some new => do
          match ← new kwargs with
          | .inst id' attrs' =>
              if id' = id then do
                let attrs ← cls.runInit attrs' kwargs
                .ok (.inst id attrs)
              else .ok (.inst id' attrs')
          | obj => .ok obj

/-- Calling a class without a `__call__` or `__new__` of the user runs its `__init__`. -/
theorem call_eq {cls : PyClass} (hmeta : cls.metaCall = none)
    (hnew : ∀ layer ∈ cls.mro, layer.new = none) (id : ClassId) (kwargs : Kwargs) :
    cls.call id kwargs = cls.objectNew >>= fun attrs => cls.runInit attrs kwargs >>= fun attrs =>
      .ok (.inst id attrs) := by
  have hnone : cls.mro.findSome? (·.new) = none := List.findSome?_eq_none_iff.mpr hnew
  unfold call
  rw [hmeta, hnone]

end PyClass

/-! ## A class that is one dataclass

The classes the plugin generates have no base but `Message` and bind nothing but their fields. -/

section Dataclass

variable {cls : PyClass} {dc : Dataclass} (h : cls.mro = [{ dataclass := some dc }])
include h

/-- Such a class binds a name to a slot or to a default. -/
theorem typeLookup_dataclass (name : String) :
    cls.typeLookup name = some .slot ∨ cls.typeLookup name = none ∨
      ∃ v, cls.typeLookup name = some (.value v) := by
  unfold PyClass.typeLookup
  rw [h]
  simp only [Layer.lookupType, Layer.entry, Option.getD_none, List.contains_nil, List.lookup_nil,
    Option.none_or, Bool.false_eq_true, if_false]
  -- `slots=True` moves the default of a field away from the class
  by_cases hslotted : Layer.slotted { dataclass := some dc } name = true
  · rw [if_pos hslotted]
    by_cases hinherited : Layer.inheritsSlot [] name = true
    · rw [if_pos hinherited, Option.none_or]
      by_cases hslot : name = unknownSlot
      · exact .inl (if_pos hslot)
      · exact .inr (.inl (if_neg hslot))
    · rw [if_neg hinherited]
      exact .inl rfl
  · rw [if_neg hslotted]
    cases Layer.ownDefault { dataclass := some dc } name with
    | some v => exact .inr (.inr ⟨v, rfl⟩)
    | none =>
        by_cases hslot : name = unknownSlot
        · exact .inl (if_pos hslot)
        · exact .inr (.inl (if_neg hslot))

/-- An attribute stored on an instance of such a class is what it reads as. -/
theorem getattr_dataclass {attrs : Attrs} {name : String} {value : PyVal}
    (hvalue : attrs.lookup name = some value) : cls.getattr attrs name = .ok value := by
  have hown : cls.mro.findSome? (·.getattribute) = none := by rw [h]; rfl
  unfold PyClass.getattr PyClass.objectGetattribute
  rw [hown]
  rcases typeLookup_dataclass h name with hentry | hentry | ⟨v, hentry⟩ <;> simp [hentry, hvalue]

/-- In a slotted class, its fields and the unknown bytes have slots. -/
theorem typeLookup_slotted (hslots : dc.slots = true)
    (hregular : ∀ f ∈ dc.fields, f.fieldType = .regular) {name : String}
    (hname : name = unknownSlot ∨ name ∈ dc.fields.map (·.name)) :
    cls.typeLookup name = some .slot := by
  unfold PyClass.typeLookup
  rw [h]
  simp only [Layer.lookupType, Layer.entry, Option.getD_none, List.contains_nil, List.lookup_nil,
    Option.none_or, Bool.false_eq_true, if_false]
  by_cases hmem : name ∈ dc.fields.map (·.name)
  · obtain ⟨f, hf, rfl⟩ := List.mem_map.mp hmem
    have hslotted : Layer.slotted { dataclass := some dc } f.name = true := by
      simp only [Layer.slotted, Option.any_some, hslots, Bool.true_and, Dataclass.hasRegular,
        List.any_eq_true]
      exact ⟨f, hf, by simp [hregular f hf]⟩
    rw [if_pos hslotted]
    by_cases hslot : f.name = unknownSlot
    · simp [Layer.inheritsSlot, hslot]
    · simp [Layer.inheritsSlot, hslot]
  · -- no entry is named like the slot of `Message`
    have hslot : name = unknownSlot := hname.resolve_right hmem
    have hnone : ∀ f ∈ dc.fields, (f.name == name) = false := by
      intro f hf
      rw [beq_eq_false_iff_ne]
      intro hfname
      exact hmem (hfname ▸ List.mem_map_of_mem hf)
    have hslotted : Layer.slotted { dataclass := some dc } name = false := by
      simp only [Layer.slotted, Option.any_some, hslots, Bool.true_and, Dataclass.hasRegular]
      exact List.any_eq_false.mpr fun f hf => by simp [hnone f hf]
    have hdefault : Layer.ownDefault { dataclass := some dc } name = none := by
      have hfind : (dc.fields.find? fun f => f.name == name) = none :=
        List.find?_eq_none.mpr fun f hf => by simp [hnone f hf]
      simp [Layer.ownDefault, hfind]
    rw [hslotted, hdefault, if_neg (by decide), if_pos hslot]
    rfl

/-- The fields and the unknown bytes are assigned through `object`. -/
theorem objectSetattr_dataclass (hregular : ∀ f ∈ dc.fields, f.fieldType = .regular)
    {name : String} (hname : name = unknownSlot ∨ name ∈ dc.fields.map (·.name)) (attrs : Attrs)
    (value : PyVal) : cls.objectSetattr attrs name value = .ok (setAttr attrs name value) := by
  unfold PyClass.objectSetattr
  -- without slots the instances have a `__dict__`
  by_cases hslots : dc.slots = true
  · rw [typeLookup_slotted h hslots hregular hname]
  · have hdict : cls.hasDict = true := by
      unfold PyClass.hasDict
      rw [h]
      simp [Layer.givesDict, hslots]
    rcases typeLookup_dataclass h name with hentry | hentry | ⟨v, hentry⟩ <;> simp [hentry, hdict]

/-- A frozen class rejects every assignment, another one makes those `object` makes. -/
theorem setattr_dataclass (attrs : Attrs) (name : String) (value : PyVal) :
    cls.setattr attrs name value =
      if dc.frozen then .error (.attributeError ("cannot assign to field " ++ name))
      else cls.objectSetattr attrs name value := by
  unfold PyClass.setattr
  rw [h]
  simp [Layer.setattrFrom, Layer.rejects]

/-- The fields of a class that is not frozen take assignments. -/
theorem assign_dataclass (hregular : ∀ f ∈ dc.fields, f.fieldType = .regular)
    (hfrozen : dc.frozen = false) {assignments : List (String × PyVal)}
    (hnames : ∀ name ∈ assignments.map Prod.fst, name ∈ dc.fields.map (·.name)) (attrs : Attrs) :
    cls.assign attrs assignments
      = .ok (assignments.foldl (fun acc p => setAttr acc p.1 p.2) attrs) := by
  refine PyClass.assign_eq (fun p hp attrs => ?_) attrs
  rw [setattr_dataclass h, hfrozen, if_neg (by decide)]
  exact objectSetattr_dataclass h hregular (.inr (hnames _ (List.mem_map_of_mem hp))) _ _

/-- Storing the unknown bytes fills the slot, frozen or not. -/
theorem storeUnknown_dataclass (hregular : ∀ f ∈ dc.fields, f.fieldType = .regular)
    {caught : PyErr → Bool} (hcaught : ∀ msg, caught (.attributeError msg) = true) (attrs : Attrs)
    (unknown : Bytes) : cls.storeUnknown caught attrs unknown
      = .ok (setAttr attrs unknownSlot (.bytes unknown)) := by
  have hobject := objectSetattr_dataclass h hregular (.inl rfl) attrs (.bytes unknown)
  unfold PyClass.storeUnknown
  rw [setattr_dataclass h, hobject]
  -- a frozen class rejects the assignment, and `object.__setattr__` makes it
  by_cases hfrozen : dc.frozen = true
  · simp [hfrozen, hcaught]
  · simp [hfrozen]

/-- A generated `__init__` assigns what `object` stores. -/
theorem assignField_dataclass (hregular : ∀ f ∈ dc.fields, f.fieldType = .regular) {name : String}
    (hname : name ∈ dc.fields.map (·.name)) (attrs : Attrs) (value : PyVal) :
    (if dc.frozen then cls.objectSetattr else cls.setattr) attrs name value
      = .ok (setAttr attrs name value) := by
  have hobject := objectSetattr_dataclass h hregular (.inr hname) attrs value
  by_cases hfrozen : dc.frozen = true
  · rw [if_pos hfrozen, hobject]
  · rw [if_neg hfrozen, setattr_dataclass h, if_neg hfrozen, hobject]

end Dataclass

end FastProto
